import TagRegistry.Proofs.Stages

/-! Servings that a client cannot tell apart.

What a client learns is how a serving ends, and the log is kept from it. Two servings are alike if
they end alike whatever is in their logs, and this carries over from the parts of a serving to the
whole, so that servings of two registries can be compared step by step. -/

namespace TagRegistry

/-- Both end well, in related values, or both in the same refusal. -/
inductive EndsAlike {ε α β : Type} (R : α → β → Prop) : Except ε α → Except ε β → Prop where
  | ok {a : α} {b : β} : R a b → EndsAlike R (.ok a) (.ok b)
  | error (e : ε) : EndsAlike R (.error e) (.error e)

theorem EndsAlike.eq {ε α : Type} {x y : Except ε α} (h : EndsAlike Eq x y) : x = y := by
  cases h with
  | ok h => rw [h]
  | error e => rfl

namespace Serving

variable {α β γ δ ι κ : Type} {R : α → β → Prop} {S : γ → δ → Prop}

/-- Two servings end alike, whatever has been logged before. -/
def SameEnd (R : α → β → Prop) (x : Serving α) (y : Serving β) : Prop :=
  ∀ log log', EndsAlike R (x.run.run log).1 (y.run.run log').1

theorem SameEnd.outcome {x y : Serving α} (h : SameEnd Eq x y) : x.outcome.1 = y.outcome.1 :=
  (h [] []).eq

theorem alike_pure {a : α} {b : β} (h : R a b) : SameEnd R (pure a) (pure b) :=
  fun _ _ => .ok h

theorem alike_throw (e : RequestError) : SameEnd R (throw e) (throw e) :=
  fun _ _ => .error e

theorem alike_log (a b : StoreFailure) : SameEnd (fun _ _ => True) (log a) (log b) :=
  fun _ _ => .ok trivial

theorem SameEnd.bind {x : Serving α} {y : Serving β} {f : α → Serving γ} {g : β → Serving δ}
    (h : SameEnd R x y) (hf : ∀ a b, R a b → SameEnd S (f a) (g b)) : SameEnd S (x >>= f) (y >>= g) := by
  intro before before'
  have hxy := h before before'
  rw [ExceptT.run_bind, ExceptT.run_bind, StateT.run_bind, StateT.run_bind]
  generalize x.run.run before = ended at hxy
  generalize y.run.run before' = ended' at hxy
  obtain ⟨result, after⟩ := ended
  obtain ⟨result', after'⟩ := ended'
  cases hxy with
  | ok hab => exact hf _ _ hab after after'
  | error e => exact .error e

theorem result_attempt? (x : Serving α) (before : List StoreFailure) :
    ((attempt? x).run.run before).1 = .ok (x.run.run before).1.toOption := by
  unfold attempt?
  cases hrun : x.run.run before with
  | mk result after =>
    cases result with
    | ok a | error e =>
      simp only [ExceptT.run, StateT.run] at hrun ⊢
      rw [hrun]
      rfl

theorem SameEnd.attempt? {x : Serving α} {y : Serving β} (h : SameEnd R x y) :
    SameEnd (Option.Rel R) (attempt? x) (attempt? y) := by
  intro before before'
  have hxy := h before before'
  rw [result_attempt?, result_attempt?]
  generalize (x.run.run before).1 = result at hxy
  generalize (y.run.run before').1 = result' at hxy
  cases hxy with
  | ok hab => exact .ok (.some hab)
  | error e => exact .ok .none

theorem alike_mapM {Q : ι → κ → Prop} {f : ι → Serving α} {g : κ → Serving β} {items : List ι}
    {items' : List κ} (h : List.Forall₂ Q items items') (hf : ∀ i j, Q i j → SameEnd R (f i) (g j)) :
    SameEnd (List.Forall₂ R) (items.mapM f) (items'.mapM g) := by
  induction h with
  | nil => exact alike_pure .nil
  | cons hfirst _ ih =>
    rw [List.mapM_cons, List.mapM_cons]
    exact (hf _ _ hfirst).bind fun a b hab => ih.bind fun as bs habs => alike_pure (.cons hab habs)

theorem alike_forM_log (failures failures' : List StoreFailure) :
    SameEnd (fun _ _ => True) (failures.forM log) (failures'.forM log) := by
  intro before before'
  rw [run_forM_log, run_forM_log]
  exact .ok trivial

end Serving

/-- Asking two stores for what they both have or both fail to give. -/
theorem ServedModule.alike_require {α β : Type} {R : α → β → Prop} (m m' : ServedModule)
    {answer : Except StoreError α} {answer' : Except StoreError β}
    (h : Option.Rel R answer.toOption answer'.toOption) :
    Serving.SameEnd R (m.require answer) (m'.require answer') := by
  cases answer with
  | ok a =>
    cases answer' with
    | ok b =>
      cases h with
      | some hab => exact Serving.alike_pure hab
    | error cause => cases h
  | error cause =>
    cases answer' with
    | ok b => cases h
    | error cause' => exact (Serving.alike_log _ _).bind fun _ _ _ => Serving.alike_throw .internal

end TagRegistry
