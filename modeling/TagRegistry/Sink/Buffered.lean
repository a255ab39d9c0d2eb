import TagRegistry.Sink

/-! A sink that gathers octets and passes them on in larger parts. -/

namespace TagRegistry

structure Buffered (σ : Type) where
  out : σ
  /-- From so many octets on, they are passed on as they come. -/
  capacity : Nat
  /-- What has not been passed on yet. -/
  held : Bytes
  deriving DecidableEq, Repr

namespace Buffered

variable {σ : Type} [Sink σ]

def onto (capacity : Nat) (out : σ) : Buffered σ := ⟨out, capacity, []⟩

/-- Passes on what is held. What is refused stays held. -/
def flush (b : Buffered σ) : Buffered σ × Bool :=
  match Sink.put b.out b.held with
  | (out, true) => (⟨out, b.capacity, []⟩, true)
  | (out, false) => (⟨out, b.capacity, b.held⟩, false)

/-- Passes on what is held if octets do not fit behind it. -/
def makeRoom (b : Buffered σ) (bs : Bytes) : Buffered σ × Bool :=
  if b.capacity < b.held.length + bs.length then b.flush else (b, true)

def put (b : Buffered σ) (bs : Bytes) : Buffered σ × Bool :=
  match b.makeRoom bs with
  | (b, false) => (b, false)
  | (b, true) =>
    if b.capacity ≤ bs.length then
      let (out, taken) := Sink.put b.out bs
      (⟨out, b.capacity, b.held⟩, taken)
    else (⟨b.out, b.capacity, b.held ++ bs⟩, true)

instance : Sink (Buffered σ) := ⟨put, fun _ => none⟩

/-- Passes on what can be passed on, and gives the sink back. -/
def close (b : Buffered σ) : σ := b.flush.1.out

end Buffered

end TagRegistry
