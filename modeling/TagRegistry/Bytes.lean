/-! Octet sequences. Git names, file contents and archives are octets; text is decoded from
them only where a rule asks for text. -/

namespace TagRegistry

abbrev Bytes := List UInt8

namespace Bytes

/-- The octets of an ASCII literal. Characters above U+00FF would lose their high bits. -/
def ascii (s : String) : Bytes := s.toList.map fun c => UInt8.ofNat c.toNat

def slash : UInt8 := 47

def dot : UInt8 := 46

/-- The octets that count as space in the files of a repository. -/
def isSpace (b : UInt8) : Bool := b == 32 || (9 ≤ b && b ≤ 13)

def trimEnd (bs : Bytes) : Bytes := (bs.reverse.dropWhile isSpace).reverse

def beforeNul (bs : Bytes) : Bytes := bs.takeWhile (· != 0)

def cutAt? (b : UInt8) (bs : Bytes) : Option (Bytes × Bytes) :=
  match bs.span (· != b) with
  | (before, _ :: after) => some (before, after)
  | (_, []) => none

/-- A number in `width` octets, the lowest first. -/
def littleEndian : Nat → Nat → Bytes
  | 0, _ => []
  | width + 1, n => UInt8.ofNat (n % 256) :: littleEndian width (n / 256)

/-- The number that octets spell, the lowest first. -/
def fromLittleEndian : Bytes → Nat
  | [] => 0
  | b :: bs => b.toNat + 256 * fromLittleEndian bs

end Bytes

end TagRegistry
