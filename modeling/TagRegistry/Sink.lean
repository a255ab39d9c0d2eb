import TagRegistry.Bytes

/-! Where octets are written to. -/

namespace TagRegistry

/-- Something that takes octets, until it perhaps takes no more. -/
class Sink (σ : Type) where
  /-- Takes all octets in order, or only a front part of them; the flag says whether all were
  taken. -/
  put : σ → Bytes → σ × Bool
  /-- A number of octets that the sink certainly does not take any more, if there is one. -/
  room : σ → Option Nat

/-- Puts parts one after the other, until one is refused. -/
def Sink.putAll {σ : Type} [Sink σ] : List Bytes → σ → σ × Bool
  | [], out => (out, true)
  | part :: parts, out =>
    match Sink.put out part with
    | (out, true) => putAll parts out
    | (out, false) => (out, false)

/-- A sink that keeps what it takes, up to `room` further octets if that is given. -/
structure Collected where
  octets : Array UInt8
  room : Option Nat
  deriving DecidableEq, Repr

namespace Collected

def unlimited : Collected := ⟨#[], none⟩

def limited (room : Nat) : Collected := ⟨#[], some room⟩

def put (c : Collected) (bs : Bytes) : Collected × Bool :=
  match c.room with
  | none => (⟨c.octets ++ bs, none⟩, true)
  | some room =>
    (⟨c.octets ++ bs.take room, some (room - bs.length)⟩, decide (bs.length ≤ room))

def toList (c : Collected) : Bytes := c.octets.toList

instance : Sink Collected := ⟨put, Collected.room⟩

end Collected

end TagRegistry
