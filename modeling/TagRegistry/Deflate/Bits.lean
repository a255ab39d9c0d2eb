import TagRegistry.Bytes

/-! Bits of a compressed stream.

Numbers are written with their lowest bit first, and octets are filled from their lowest bit on. -/

namespace TagRegistry.Deflate

/-- The lowest `width` bits of a number, the lowest first. -/
def lowBits : Nat → Nat → List Bool
  | 0, _ => []
  | width + 1, n => (n % 2 == 1) :: lowBits width (n / 2)

/-- The number that bits spell, the lowest first. -/
def number : List Bool → Nat
  | [] => 0
  | b :: bs => b.toNat + 2 * number bs

/-- Puts bits into octets: the full octets, and the bits that fill none. -/
def pack : List Bool → Bytes × List Bool
  | a :: b :: c :: d :: e :: f :: g :: h :: rest =>
    let (octets, left) := pack rest
    (UInt8.ofNat (number [a, b, c, d, e, f, g, h]) :: octets, left)
  | left => ([], left)

/-- Puts bits into octets, the last one filled up with zeros. -/
def packPadded (bits : List Bool) : Bytes :=
  let (octets, left) := pack bits
  if left.isEmpty then octets else octets ++ [UInt8.ofNat (number left)]

/-- What is left to be read: the rest of an octet, and the octets after it. -/
structure BitSource where
  pending : List Bool
  octets : Bytes
  deriving DecidableEq, Repr

namespace BitSource

def ofBytes (bs : Bytes) : BitSource := ⟨[], bs⟩

def ofBits (bits : List Bool) : BitSource := ⟨bits, []⟩

def isEmpty (s : BitSource) : Bool := s.pending.isEmpty && s.octets.isEmpty

def size (s : BitSource) : Nat := s.pending.length + 8 * s.octets.length

def bit? : BitSource → Option (Bool × BitSource)
  | ⟨b :: pending, octets⟩ => some (b, ⟨pending, octets⟩)
  | ⟨[], o :: octets⟩ => some (o.toNat % 2 == 1, ⟨lowBits 7 (o.toNat / 2), octets⟩)
  | ⟨[], []⟩ => none

def number? : Nat → BitSource → Option (Nat × BitSource)
  | 0, s => some (0, s)
  | width + 1, s => do
    let (b, s) ← s.bit?
    let (n, s) ← number? width s
    return (b.toNat + 2 * n, s)

end BitSource

end TagRegistry.Deflate
