import TagRegistry.Sink

/-! A sink that can be sealed. A sealed sink takes nothing more, whoever still holds it. -/

namespace TagRegistry

structure Sealable (σ : Type) where
  inner : σ
  isSealed : Bool
  /-- Has the inner sink ever refused something? -/
  failed : Bool
  deriving DecidableEq, Repr

namespace Sealable

variable {σ : Type} [Sink σ]

def onto (inner : σ) : Sealable σ := ⟨inner, false, false⟩

def sealed (out : Sealable σ) : Sealable σ := { out with isSealed := true }

/-- Hands octets on, unless the sink is sealed. That they are refused then is no failure of the
inner sink. -/
def put : Sealable σ → Bytes → Sealable σ × Bool
  | ⟨inner, true, failed⟩, _ => (⟨inner, true, failed⟩, false)
  | ⟨inner, false, failed⟩, bs =>
    let (inner, taken) := Sink.put inner bs
    (⟨inner, false, failed || !taken⟩, taken)

instance : Sink (Sealable σ) := ⟨put, fun out => Sink.room out.inner⟩

end Sealable

end TagRegistry
