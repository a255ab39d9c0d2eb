/-! Traces of processes that may fail: what comes out in order, and how it ends. -/

namespace TagRegistry

/-- What comes out one after the other, until it ends well or in a failure. -/
structure Trace (α ε : Type) where
  events : List α
  outcome : Except ε Unit

namespace Trace

variable {α β ε δ : Type}

def done : Trace α ε := ⟨[], .ok ()⟩

def stop (cause : ε) : Trace α ε := ⟨[], .error cause⟩

def one (event : α) : Trace α ε := ⟨[event], .ok ()⟩

/-- Goes on unless the first part fails. -/
def andThen (a b : Trace α ε) : Trace α ε :=
  match a.outcome with
  | .ok () => ⟨a.events ++ b.events, b.outcome⟩
  | .error cause => ⟨a.events, .error cause⟩

def sequence : List (Trace α ε) → Trace α ε
  | [] => done
  | t :: ts => t.andThen (sequence ts)

/-- Puts a trace in the place of every event. -/
def expand (f : α → Trace β δ) (g : ε → δ) (t : Trace α ε) : Trace β δ :=
  (sequence (t.events.map f)).andThen ⟨[], t.outcome.mapError g⟩

theorem ok_andThen (events : List α) (t : Trace α ε) :
    (⟨events, .ok ()⟩ : Trace α ε).andThen t = ⟨events ++ t.events, t.outcome⟩ := rfl

theorem error_andThen (events : List α) (cause : ε) (t : Trace α ε) :
    (⟨events, .error cause⟩ : Trace α ε).andThen t = ⟨events, .error cause⟩ := rfl

@[simp] theorem andThen_done (t : Trace α ε) : t.andThen done = t := by
  obtain ⟨events, outcome⟩ := t
  cases outcome <;> simp [andThen, done]

theorem andThen_assoc (a b c : Trace α ε) : (a.andThen b).andThen c = a.andThen (b.andThen c) := by
  obtain ⟨as, oa⟩ := a
  obtain ⟨bs, ob⟩ := b
  cases oa <;> cases ob <;> simp [andThen]

theorem sequence_append (ts us : List (Trace α ε)) :
    sequence (ts ++ us) = (sequence ts).andThen (sequence us) := by
  induction ts with
  | nil => rfl
  | cons t ts ih => rw [List.cons_append, sequence, sequence, ih, andThen_assoc]

theorem expand_andThen (f : α → Trace β δ) (g : ε → δ) (a b : Trace α ε) :
    (a.andThen b).expand f g = (a.expand f g).andThen (b.expand f g) := by
  obtain ⟨as, oa⟩ := a
  cases oa with
  | ok u =>
    rw [ok_andThen]
    unfold expand
    rw [List.map_append, sequence_append, andThen_assoc, andThen_assoc]
    rfl
  | error cause =>
    rw [error_andThen]
    unfold expand
    rw [andThen_assoc]
    rfl

theorem expand_one (f : α → Trace β δ) (g : ε → δ) (event : α) :
    (one event : Trace α ε).expand f g = f event := by
  have hdone : (⟨[], (Except.ok () : Except ε Unit).mapError g⟩ : Trace β δ) = .done := rfl
  rw [expand, one, List.map_singleton, hdone, andThen_done, sequence,
    sequence, andThen_done]

theorem expand_sequence (f : α → Trace β δ) (g : ε → δ)
    (ts : List (Trace α ε)) :
    (sequence ts).expand f g = sequence (ts.map (expand f g)) := by
  induction ts with
  | nil => rfl
  | cons t ts ih => rw [sequence, expand_andThen, ih, List.map_cons, sequence]

/-- A trace ends well exactly if all its parts do. -/
theorem andThen_ok_iff {a b : Trace α ε} :
    (a.andThen b).outcome = .ok () ↔ a.outcome = .ok () ∧ b.outcome = .ok () := by
  obtain ⟨as, oa⟩ := a
  cases oa <;> simp [andThen]

theorem outcome_ok_iff {t : Trace α ε} : t.outcome = .ok () ↔ t.outcome.isOk = true := by
  obtain ⟨events, outcome⟩ := t
  cases outcome <;> simp [Except.isOk, Except.toBool]

theorem events_andThen {a b : Trace α ε} (h : a.outcome = .ok ()) :
    (a.andThen b).events = a.events ++ b.events := by
  simp [andThen, h]

theorem andThen_error {a b : Trace α ε} {cause : ε} (h : (a.andThen b).outcome = .error cause) :
    a.outcome = .error cause ∨ b.outcome = .error cause := by
  obtain ⟨events, outcome⟩ := a
  cases outcome with
  | ok u => exact .inr h
  | error first => exact .inl h

/-! ## Sequences and their first failure -/

section Parts

variable {f : β → Trace α ε} {items before after : List β} {item : β} {cause : ε}

/-- Parts that all end well come out one after the other. -/
theorem sequence_map_of_ok (h : ∀ item ∈ items, (f item).outcome = .ok ()) :
    sequence (items.map f) = ⟨items.flatMap fun item => (f item).events, .ok ()⟩ := by
  induction items with
  | nil => rfl
  | cons item items ih =>
    rw [List.map_cons, sequence, ih fun i hi => h i (List.mem_cons_of_mem item hi), andThen,
      h item List.mem_cons_self, List.flatMap_cons]

/-- What comes after the first failure does not count. -/
theorem sequence_map_of_error (hbefore : ∀ item ∈ before, (f item).outcome = .ok ())
    (hitem : (f item).outcome = .error cause) :
    sequence ((before ++ item :: after).map f) =
      ⟨(before.flatMap fun item => (f item).events) ++ (f item).events, .error cause⟩ := by
  rw [List.map_append, sequence_append, sequence_map_of_ok hbefore, ok_andThen, List.map_cons,
    sequence, andThen, hitem]

/-- Either all parts end well, or one is the first that does not. -/
theorem all_ok_or_first_error (f : β → Trace α ε) (items : List β) :
    (∀ item ∈ items, (f item).outcome = .ok ()) ∨
      ∃ before item after cause, items = before ++ item :: after ∧
        (∀ i ∈ before, (f i).outcome = .ok ()) ∧ (f item).outcome = .error cause := by
  induction items with
  | nil => exact .inl nofun
  | cons item items ih =>
    cases hitem : (f item).outcome with
    | error cause => exact .inr ⟨[], item, items, cause, rfl, nofun, hitem⟩
    | ok u =>
      rcases ih with hall | ⟨before, first, after, cause, rfl, hbefore, hfirst⟩
      · exact .inl (List.forall_mem_cons.mpr ⟨hitem, hall⟩)
      · exact .inr ⟨item :: before, first, after, cause, rfl,
          List.forall_mem_cons.mpr ⟨hitem, hbefore⟩, hfirst⟩

/-- A sequence fails as one of its parts does. -/
theorem sequence_map_error (h : (sequence (items.map f)).outcome = .error cause) :
    ∃ item ∈ items, (f item).outcome = .error cause := by
  rcases all_ok_or_first_error f items with
    hall | ⟨before, item, after, first, rfl, hbefore, hitem⟩
  · rw [sequence_map_of_ok hall] at h
    cases h
  · rw [sequence_map_of_error hbefore hitem] at h
    exact ⟨item, List.mem_append_right _ List.mem_cons_self, hitem.trans h⟩

end Parts

/-! ## Leaving out events -/

/-- Keeps the events that a function has a value for, as these values. -/
def keep (f : α → Option β) (t : Trace α ε) : Trace β ε := ⟨t.events.filterMap f, t.outcome⟩

theorem keep_andThen (f : α → Option β) (a b : Trace α ε) :
    (a.andThen b).keep f = (a.keep f).andThen (b.keep f) := by
  obtain ⟨as, oa⟩ := a
  cases oa <;> simp [keep, andThen]

theorem keep_sequence (f : α → Option β) (ts : List (Trace α ε)) :
    (sequence ts).keep f = sequence (ts.map (keep f)) := by
  induction ts with
  | nil => rfl
  | cons t ts ih => rw [sequence, keep_andThen, ih, List.map_cons, sequence]

/-! ## Interruptions -/

/-- Stops behind the first event for which there is a cause. -/
def interruptAll (cause? : α → Option ε) (outcome : Except ε Unit) : List α → Trace α ε
  | [] => ⟨[], outcome⟩
  | event :: events =>
    match cause? event with
    | some cause => ⟨[event], .error cause⟩
    | none => (one event).andThen (interruptAll cause? outcome events)

def interrupt (cause? : α → Option ε) (t : Trace α ε) : Trace α ε :=
  interruptAll cause? t.outcome t.events

section Interruption

variable {cause? : α → Option ε}

theorem interrupt_cons_none {event : α} {events : List α} {outcome : Except ε Unit}
    (h : cause? event = none) :
    interrupt cause? ⟨event :: events, outcome⟩ =
      (one event).andThen (interrupt cause? ⟨events, outcome⟩) := by
  simp only [interrupt, interruptAll, h]

theorem interrupt_cons_some {event : α} {events : List α} {outcome : Except ε Unit} {cause : ε}
    (h : cause? event = some cause) :
    interrupt cause? ⟨event :: events, outcome⟩ = ⟨[event], .error cause⟩ := by
  simp only [interrupt, interruptAll, h]

theorem interrupt_andThen (a b : Trace α ε) :
    (a.andThen b).interrupt cause? = (a.interrupt cause?).andThen (b.interrupt cause?) := by
  obtain ⟨events, outcome⟩ := a
  induction events with
  | nil => cases outcome <;> rfl
  | cons event events ih =>
    have hcons : (⟨event :: events, outcome⟩ : Trace α ε).andThen b =
        ⟨event :: ((⟨events, outcome⟩ : Trace α ε).andThen b).events,
          ((⟨events, outcome⟩ : Trace α ε).andThen b).outcome⟩ := by
      cases outcome <;> rfl
    rw [hcons]
    cases h : cause? event with
    | none => rw [interrupt_cons_none h, interrupt_cons_none h, andThen_assoc, ← ih]
    | some cause => rw [interrupt_cons_some h, interrupt_cons_some h, error_andThen]

theorem interrupt_sequence (ts : List (Trace α ε)) :
    (sequence ts).interrupt cause? = sequence (ts.map (interrupt cause?)) := by
  induction ts with
  | nil => rfl
  | cons t ts ih => rw [sequence, interrupt_andThen, ih, List.map_cons, sequence]

theorem interrupt_eq_self {t : Trace α ε} (h : ∀ event ∈ t.events, cause? event = none) :
    t.interrupt cause? = t := by
  obtain ⟨events, outcome⟩ := t
  induction events with
  | nil => rfl
  | cons event events ih =>
    obtain ⟨hevent, hevents⟩ := List.forall_mem_cons.mp h
    rw [interrupt_cons_none hevent, ih hevents]
    rfl

/-- What comes out up to an interruption comes out first without it. -/
theorem events_interrupt (cause? : α → Option ε) (t : Trace α ε) :
    (t.interrupt cause?).events <+: t.events := by
  obtain ⟨events, outcome⟩ := t
  induction events with
  | nil => exact List.prefix_rfl
  | cons event events ih =>
    cases h : cause? event with
    | none =>
      rw [interrupt_cons_none h]
      exact (List.prefix_cons_inj event).mpr ih
    | some cause =>
      rw [interrupt_cons_some h]
      exact ⟨events, rfl⟩

/-- An event for which there is a cause is enough to fail. -/
theorem outcome_interrupt {t : Trace α ε} (h : ∃ event ∈ t.events, cause? event ≠ none) :
    ∃ event ∈ t.events, ∃ cause, cause? event = some cause ∧
      (t.interrupt cause?).outcome = .error cause := by
  obtain ⟨events, outcome⟩ := t
  induction events with
  | nil =>
    obtain ⟨event, hmem, -⟩ := h
    cases hmem
  | cons first events ih =>
    cases hfirst : cause? first with
    | some cause =>
      rw [interrupt_cons_some hfirst]
      exact ⟨first, List.mem_cons_self, cause, hfirst, rfl⟩
    | none =>
      obtain ⟨event, hmem, hevent⟩ := h
      have hrest : event ∈ events := by
        rcases List.mem_cons.mp hmem with rfl | hmem
        · exact absurd hfirst hevent
        · exact hmem
      obtain ⟨stopping, hstopping, cause, hcause, houtcome⟩ := ih ⟨event, hrest, hevent⟩
      rw [interrupt_cons_none hfirst]
      exact ⟨stopping, List.mem_cons_of_mem first hstopping, cause, hcause, houtcome⟩

end Interruption

end Trace

end TagRegistry
