import TagRegistry.Proofs.Nesting
import TagRegistry.Proofs.SinkStages

/-! Stores with the same content.

Two stores have the same content if they give the same answers and fail to answer the same
questions. Why a question is not answered does not count, but that a reference is absent is an
answer. What is sent of an archive is the same for both: a failure ends it at the same place. -/

namespace TagRegistry

/-! ## Traces with the same events -/

/-- The same comes out, and both traces end well or both fail. -/
structure Trace.Alike {α ε δ : Type} (t : Trace α ε) (u : Trace α δ) : Prop where
  events : t.events = u.events
  outcome : t.outcome = .ok () ↔ u.outcome = .ok ()

namespace Trace

variable {α β ε δ ζ η : Type}

theorem Alike.refl (t : Trace α ε) : t.Alike t := ⟨rfl, .rfl⟩

theorem alike_stop (cause : ε) (cause' : δ) : (stop cause : Trace α ε).Alike (stop cause') :=
  ⟨rfl, iff_of_false nofun nofun⟩

theorem Alike.andThen {a b : Trace α ε} {a' b' : Trace α δ} (h : a.Alike a') (h' : b.Alike b') :
    (a.andThen b).Alike (a'.andThen b') := by
  refine ⟨?_, by rw [andThen_ok_iff, andThen_ok_iff, h.outcome, h'.outcome]⟩
  obtain ⟨events, outcome⟩ := a
  obtain ⟨events', outcome'⟩ := a'
  obtain ⟨hevents, houtcome⟩ := h
  simp only at hevents houtcome
  subst hevents
  cases outcome with
  | ok u =>
    rw [houtcome.mp rfl, ok_andThen, ok_andThen, h'.events]
  | error cause =>
    cases outcome' with
    | ok u => exact absurd (houtcome.mpr rfl) nofun
    | error cause' => rfl

theorem alike_sequence {f : β → Trace α ε} {g : β → Trace α δ} {items : List β}
    (h : ∀ item ∈ items, (f item).Alike (g item)) :
    (sequence (items.map f)).Alike (sequence (items.map g)) := by
  induction items with
  | nil => exact ⟨rfl, iff_of_true rfl rfl⟩
  | cons item items ih =>
    exact (h item List.mem_cons_self).andThen
      (ih fun i hi => h i (List.mem_cons_of_mem item hi))

theorem ok_mapError_iff {f : ε → ζ} {outcome : Except ε Unit} :
    outcome.mapError f = .ok () ↔ outcome = .ok () := by
  cases outcome <;> simp [Except.mapError]

theorem Alike.expand {t : Trace α ε} {u : Trace α δ} (h : t.Alike u) (f : α → Trace β ζ)
    (g : ε → ζ) (g' : δ → ζ) : (t.expand f g).Alike (u.expand f g') := by
  rw [Trace.expand, Trace.expand, h.events]
  exact (Alike.refl _).andThen ⟨rfl, by rw [ok_mapError_iff, ok_mapError_iff, h.outcome]⟩

end Trace

/-! ## Stores -/

/-- The store says that there is no such reference. -/
def Absent (s : ObjectStore) (name : String) : Prop :=
  ∃ cause, s.peel name = .error cause ∧ cause.isRefNotFound = true

/-- References lead to the same commits, and trees and blobs hold the same. -/
structure SameSnapshots (s s' : ObjectStore) : Prop where
  commits (name : String) : (s.peel name).toOption = (s'.peel name).toOption
  absent (name : String) : Absent s name ↔ Absent s' name
  trees (id : ObjectId) : (s.readTree id).toOption = (s'.readTree id).toOption
  blobs (id : ObjectId) : (s.readBlob id).toOption = (s'.readBlob id).toOption
  /-- How far a walk goes where a tree contains itself depends on how many trees there are. -/
  circles : s.treeIds.length = s'.treeIds.length ∨ ∀ root, Acyclic s root

/-- The same content, and the same references in the same order. -/
structure SameContent (s s' : ObjectStore) : Prop extends SameSnapshots s s' where
  names : s.referenceNames.toOption = s'.referenceNames.toOption

theorem toOption_eq_cases {α : Type} {x y : Except StoreError α} (h : x.toOption = y.toOption) :
    (∃ a, x = .ok a ∧ y = .ok a) ∨ ∃ c d, x = .error c ∧ y = .error d := by
  cases x with
  | ok a =>
    cases y with
    | ok b => exact .inl ⟨a, rfl, congrArg Except.ok (Option.some.inj h).symm⟩
    | error d => cases h
  | error c =>
    cases y with
    | ok b => cases h
    | error d => exact .inr ⟨c, d, rfl, rfl⟩

theorem toOption_bind_congr {α β : Type} {x y : Except StoreError α}
    (h : x.toOption = y.toOption) (f : α → Except StoreError β) :
    (x >>= f).toOption = (y >>= f).toOption := by
  obtain ⟨a, rfl, rfl⟩ | ⟨c, d, rfl, rfl⟩ := toOption_eq_cases h <;> rfl

theorem alike_answered {α : Type} {f g : α → Trace Item StoreError}
    {answer answer' : Except StoreError α} (h : answer.toOption = answer'.toOption)
    (hfg : ∀ a, answer = .ok a → (f a).Alike (g a)) :
    (answered f answer).Alike (answered g answer') := by
  obtain ⟨a, rfl, rfl⟩ | ⟨c, d, rfl, rfl⟩ := toOption_eq_cases h
  · exact hfg a rfl
  · exact Trace.alike_stop c d

namespace SameSnapshots

variable {s s' : ObjectStore} {root tree child : ObjectId}

theorem readTree_ok_iff (h : SameSnapshots s s') {entries : List TreeEntry} :
    s.readTree tree = .ok entries ↔ s'.readTree tree = .ok entries := by
  obtain ⟨_, hread, hread'⟩ | ⟨_, _, hread, hread'⟩ := toOption_eq_cases (h.trees tree)
  · rw [hread, hread']
  · rw [hread, hread']
    exact iff_of_false nofun nofun

theorem holds_iff (h : SameSnapshots s s') : Holds s tree child ↔ Holds s' tree child := by
  simp only [Holds, h.readTree_ok_iff]

theorem reachable (h : SameSnapshots s s') (hreach : Reachable s' root tree) :
    Reachable s root tree := by
  induction hreach with
  | root => exact .root
  | step _ read mem kind ih => exact ih.holds (h.holds_iff.mpr ⟨_, _, read, mem, kind, rfl⟩)

theorem acyclic (h : SameSnapshots s s') (hroot : Acyclic s root) : Acyclic s' root :=
  fun hreach hc hback => hroot (h.reachable hreach) (h.holds_iff.mpr hc) (h.reachable hback)

/-- Walks with the same number of levels find the same. -/
theorem alike_walk (h : SameSnapshots s s') (depth : Nat) (tree : ObjectId) (above : Bytes) :
    (walk s depth tree above).Alike (walk s' depth tree above) := by
  induction depth generalizing tree above with
  | zero => exact .refl _
  | succ depth ih =>
    refine alike_answered (h.trees tree) fun entries _ => Trace.alike_sequence fun entry _ => ?_
    unfold walkEntry
    cases entry.kind with
    | directory => exact (Trace.Alike.refl _).andThen (ih _ _)
    | file | symlink => exact alike_answered (h.blobs _) fun _ _ => .refl _
    | submodule => exact .refl _

/-- Where no tree contains itself, walks with enough levels find the same. -/
theorem alike_walk_of_acyclic (h : SameSnapshots s s') (hroot : Acyclic s root)
    {depth depth' : Nat} (hdepth : s.treeIds.length < depth) (hdepth' : s'.treeIds.length < depth')
    (above : Bytes) : (walk s depth root above).Alike (walk s' depth' root above) := by
  have hmore : s.treeIds.length < depth + depth' := Nat.lt_add_right depth' hdepth
  have hmore' : s'.treeIds.length < depth + depth' := Nat.lt_add_left depth hdepth'
  rw [walk_eq_of_acyclic hroot hdepth hmore, walk_eq_of_acyclic (h.acyclic hroot) hdepth' hmore']
  exact h.alike_walk _ _ _

theorem peel_cases (h : SameSnapshots s s') (name : String) :
    (∃ commit, s.peel name = .ok commit ∧ s'.peel name = .ok commit) ∨
      ∃ c d, s.peel name = .error c ∧ s'.peel name = .error d ∧
        c.isRefNotFound = d.isRefNotFound := by
  obtain hok | ⟨c, d, hc, hd⟩ := toOption_eq_cases (h.commits name)
  · exact .inl hok
  · have habsent (s : ObjectStore) (cause : StoreError) (hpeel : s.peel name = .error cause) :
        Absent s name ↔ cause.isRefNotFound = true := by
      constructor
      · rintro ⟨cause', hpeel', hcause⟩
        cases hpeel.symm.trans hpeel'
        exact hcause
      · exact fun hcause => ⟨cause, hpeel, hcause⟩
    refine .inr ⟨c, d, hc, hd, Bool.eq_iff_iff.mpr ?_⟩
    rw [← habsent s c hc, ← habsent s' d hd]
    exact h.absent name

end SameSnapshots

/-! ## Archives -/

namespace Archive

variable {s s' : ObjectStore}

theorem alike_versionTrace (h : SameSnapshots s s') (v : Version) :
    (versionTrace s (s.treeIds.length + 2) v).Alike
      (versionTrace s' (s'.treeIds.length + 2) v) := by
  rw [versionTrace, versionTrace]
  obtain ⟨commit, hpeel, hpeel'⟩ | ⟨c, d, hc, hd, -⟩ := h.peel_cases v.tagRef
  · rw [hpeel, hpeel']
    refine Trace.Alike.andThen (Trace.Alike.expand ?_ _ _ _) (.refl _)
    rcases h.circles with hlength | hacyclic
    · rw [hlength]
      exact h.alike_walk _ _ _
    · exact h.alike_walk_of_acyclic (hacyclic commit.tree.oid) (by simp) (by simp) _
  · rw [hc, hd]
    exact Trace.alike_stop _ _

theorem alike_encodedTrace {t u : Trace Bytes ArchiveError} (h : t.Alike u) :
    (encodedTrace t).Alike (encodedTrace u) := by
  rw [encodedTrace, encodedTrace, h.events]
  exact Trace.Alike.andThen ⟨rfl, h.outcome⟩ (.refl _)

/-- The same is sent of an archive from two stores with the same content. -/
theorem body_eq_of_sameSnapshots (h : SameSnapshots s s') (v : Version) : body s v = body s' v := by
  have hstream : (stream s v).Alike (stream s' v) := alike_encodedTrace (alike_versionTrace h v)
  have haborts : aborts (stream s v).outcome = aborts (stream s' v).outcome := by
    have houtcome := hstream.outcome
    cases hs : (stream s v).outcome with
    | ok u => rw [houtcome.mp hs]
    | error cause =>
      cases hs' : (stream s' v).outcome with
      | ok u => exact absurd (hs.symm.trans (houtcome.mpr hs')) nofun
      | error cause' => rfl
  rw [body, body, hstream.events, haborts]

end Archive

end TagRegistry
