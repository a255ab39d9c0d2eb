import TagRegistry.Sink

/-! A channel that carries a body in chunks to one receiver, who may leave before its end. -/

namespace TagRegistry

inductive Chunk where
  | octets (content : Bytes)
  /-- The body ends here, and the receiver can tell that it is not complete. -/
  | abort
  deriving DecidableEq, Repr

structure Channel where
  /-- What the receiver got, in order. -/
  sent : List Chunk
  /-- The number of chunks after which the receiver leaves, if it does. -/
  patience : Option Nat
  deriving DecidableEq, Repr

namespace Channel

/-- A new channel to a receiver with this patience. -/
def fresh (patience : Option Nat) : Channel := ⟨[], patience⟩

/-- Sends a chunk; nothing arrives where nobody is. -/
def send (ch : Channel) (chunk : Chunk) : Channel × Bool :=
  match ch.patience with
  | none => (⟨ch.sent ++ [chunk], none⟩, true)
  | some 0 => (ch, false)
  | some (n + 1) => (⟨ch.sent ++ [chunk], some n⟩, true)

/-- Sends octets as one chunk. None are no chunk. -/
def put (ch : Channel) (bs : Bytes) : Channel × Bool :=
  if bs.isEmpty then (ch, true) else ch.send (.octets bs)

/-- Ends the body with an error, if there is somebody to tell. -/
def abort (ch : Channel) : Channel := (ch.send .abort).1

instance : Sink Channel := ⟨put, fun _ => none⟩

end Channel

end TagRegistry
