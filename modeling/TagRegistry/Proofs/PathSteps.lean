import Mathlib.Data.List.Basic
import TagRegistry.Path

/-! Paths and the steps they lead through.

The pieces of a path are its text between slashes. A path of legal names is made of pieces that
all mean something; any other path leads through the same steps as the text of its steps. -/

namespace TagRegistry

open Bytes (slash dot)

namespace Path

/-! ## Paths of legal names -/

/-- A name that a directory of a repository may hold. -/
structure LegalName (name : Bytes) : Prop where
  ne_nil : name ≠ []
  ne_dot : name ≠ [dot]
  ne_dotDot : name ≠ [dot, dot]
  no_slash : slash ∉ name
  no_nul : 0 ∉ name

/-- A path made of legal names, without a slash at either end. -/
def LegalPath (path : Bytes) : Prop := ∀ piece ∈ path.splitOn slash, LegalName piece

/-- What stands in front of the names in a directory: nothing, or its path and a slash. -/
def LegalAbove (above : Bytes) : Prop :=
  above = [] ∨ ∃ path, LegalPath path ∧ above = path ++ [slash]

theorem LegalAbove.path {above name : Bytes} (ha : LegalAbove above) (hn : LegalName name) :
    LegalPath (above ++ name) := by
  have hname : name.splitOn slash = [name] := List.splitOn_eq_singleton hn.no_slash
  obtain rfl | ⟨path, hp, rfl⟩ := ha
  · simpa [LegalPath, hname] using hn
  · intro piece hmem
    rw [List.append_assoc, List.singleton_append, List.splitOn_append_cons_self, hname] at hmem
    rcases List.mem_append.mp hmem with hmem | hmem
    · exact hp piece hmem
    · rw [List.mem_singleton.mp hmem]
      exact hn

theorem LegalPath.above {path : Bytes} (h : LegalPath path) : LegalAbove (path ++ [slash]) :=
  .inr ⟨path, h, rfl⟩

theorem LegalPath.no_nul {path : Bytes} (h : LegalPath path) : 0 ∉ path := by
  intro hmem
  have hpath : [slash].intercalate (path.splitOn slash) = path := List.intercalate_splitOn slash
  rw [← hpath] at hmem
  obtain hz | ⟨piece, hp, hz⟩ := Text.mem_of_mem_intercalate hmem
  · cases hz
  · exact (h piece hp).no_nul hz

theorem LegalPath.endsWithSlash {path : Bytes} (h : LegalPath path) :
    endsWithSlash path = false := by
  rw [Path.endsWithSlash, beq_eq_false_iff_ne]
  intro hlast
  obtain ⟨front, rfl⟩ := List.getLast?_eq_some_iff.mp hlast
  have hnil : [] ∈ (front ++ [slash]).splitOn slash := by
    rw [List.splitOn_append_cons_self]
    simp
  exact (h [] hnil).ne_nil rfl

theorem step?_of_legal {name : Bytes} (h : LegalName name) : step? name = some (.normal name) := by
  simp [step?, h.ne_nil, h.ne_dot, h.ne_dotDot]

/-! ## Steps -/

/-- What a path starts with before its steps: the root, a `.` that counts, or nothing. -/
def front (path : Bytes) : List Component :=
  match path.splitOn slash with
  | [] => []
  | first :: rest =>
    if first = [] then (if rest = [] then [] else [.root])
    else if first = [dot] then [.current] else []

/-- The pieces of a path that mean something. -/
def steps (path : Bytes) : List Component := (path.splitOn slash).filterMap step?

theorem root_or_current_of_mem_front {path : Bytes} {c : Component} (h : c ∈ front path) :
    c = .root ∨ c = .current := by
  unfold front at h
  split at h
  · cases h
  · split at h
    · split at h
      · cases h
      · exact .inl (List.mem_singleton.mp h)
    · split at h
      · exact .inr (List.mem_singleton.mp h)
      · cases h

theorem components_eq (path : Bytes) : components path = front path ++ steps path := by
  unfold components front steps
  cases path.splitOn slash with
  | nil => rfl
  | cons first rest =>
    rw [List.filterMap_cons]
    by_cases hnil : first = []
    · by_cases hrest : rest = [] <;> simp [hnil, hrest, step?]
    · by_cases hdot : first = [dot]
      · simp [hdot, step?]
      · simp only [hnil, hdot, if_false, List.nil_append]
        cases step? first <;> rfl

theorem steps_append_slash (a b : Bytes) : steps (a ++ slash :: b) = steps a ++ steps b := by
  rw [steps, List.splitOn_append_cons_self, List.filterMap_append, steps, steps]

theorem steps_of_legal {path : Bytes} (h : LegalPath path) :
    steps path = (path.splitOn slash).map .normal :=
  List.filterMap_eq_map_iff_forall_eq_some.mpr fun piece hmem => step?_of_legal (h piece hmem)

theorem front_of_legal {path : Bytes} (h : LegalPath path) : front path = [] := by
  unfold front
  unfold LegalPath at h
  split
  · rfl
  · next first rest hs =>
    have hfirst := h first (by rw [hs]; exact List.mem_cons_self)
    rw [if_neg hfirst.ne_nil, if_neg hfirst.ne_dot]

theorem components_of_legal {path : Bytes} (h : LegalPath path) :
    components path = (path.splitOn slash).map .normal := by
  rw [components_eq, front_of_legal h, steps_of_legal h, List.nil_append]

/-- The text of a step. -/
def Component.text : Component → Bytes
  | .root => [slash]
  | .current => [dot]
  | .parent => [dot, dot]
  | .normal name => name

/-- A step that its own text is read as, between slashes. -/
structure Component.Inner (c : Component) : Prop where
  step : step? c.text = some c
  no_slash : slash ∉ c.text

theorem inner_of_mem_steps {path : Bytes} {c : Component} (h : c ∈ steps path) : c.Inner := by
  obtain ⟨piece, hmem, hc⟩ := List.mem_filterMap.mp h
  have hslash := Text.not_mem_of_mem_splitOn hmem
  have hstep := hc
  unfold step? at hc
  split at hc
  · cases hc
  · split at hc
    · cases hc
      exact ⟨by decide, by decide⟩
    · cases hc
      exact ⟨hstep, hslash⟩

theorem Component.Inner.ne_nil {c : Component} (h : c.Inner) : c.text ≠ [] := by
  intro hc
  have hstep := h.step
  rw [hc] at hstep
  cases hstep

theorem Component.Inner.ne_dot {c : Component} (h : c.Inner) : c.text ≠ [dot] := by
  intro hc
  have hstep := h.step
  rw [hc] at hstep
  cases hstep

/-- The text of a path, from its steps. -/
def joined (cs : List Component) : Bytes := [slash].intercalate (cs.map Component.text)

theorem splitOn_joined {cs : List Component} (h : ∀ c ∈ cs, slash ∉ c.text) (hne : cs ≠ []) :
    (joined cs).splitOn slash = cs.map Component.text := by
  refine List.splitOn_intercalate slash ?_ (by simpa using hne)
  intro piece hmem
  obtain ⟨c, hc, rfl⟩ := List.mem_map.mp hmem
  exact h c hc

theorem filterMap_text {cs : List Component} (h : ∀ c ∈ cs, c.Inner) :
    (cs.map Component.text).filterMap step? = cs := by
  rw [List.filterMap_map]
  calc cs.filterMap (step? ∘ Component.text) = cs.map id :=
        List.filterMap_eq_map_iff_forall_eq_some.mpr fun c hc => (h c hc).step
    _ = cs := List.map_id cs

theorem steps_joined {cs : List Component} (h : ∀ c ∈ cs, c.Inner) : steps (joined cs) = cs := by
  by_cases hne : cs = []
  · subst hne
    rfl
  · rw [steps, splitOn_joined (fun c hc => (h c hc).no_slash) hne, filterMap_text h]

theorem components_joined {cs : List Component} (h : ∀ c ∈ cs, c.Inner) (hne : cs ≠ []) :
    components (joined cs) = cs := by
  rw [components_eq, steps_joined h, front, splitOn_joined (fun c hc => (h c hc).no_slash) hne]
  cases cs with
  | nil => exact absurd rfl hne
  | cons c cs =>
    have hc := h c List.mem_cons_self
    simp only [List.map_cons, hc.ne_nil, hc.ne_dot, if_false, List.nil_append]

theorem components_joined_current {cs : List Component} (h : ∀ c ∈ cs, c.Inner) :
    components (joined (.current :: cs)) = .current :: cs := by
  have hsplit : (joined (.current :: cs)).splitOn slash = [dot] :: cs.map Component.text := by
    refine splitOn_joined ?_ (List.cons_ne_nil _ _)
    intro c hc
    rcases List.mem_cons.mp hc with rfl | hc
    · decide
    · exact (h c hc).no_slash
  rw [components_eq, front, steps, hsplit]
  simp only [List.cons_ne_nil, if_false, if_true]
  rw [List.filterMap_cons_none (by decide), filterMap_text h]
  rfl

theorem components_slash (path : Bytes) : components (slash :: path) = .root :: steps path := by
  have hsplit : (slash :: path).splitOn slash = [] :: path.splitOn slash :=
    List.splitOn_append_cons_self [] path
  rw [components_eq, front, steps, hsplit]
  simp only [if_true, List.splitOn_ne_nil, if_false]
  rw [List.filterMap_cons_none (by decide)]
  rfl

/-- A slash behind a path leads nowhere else. -/
theorem steps_append_tail (path : Bytes) (closed : Bool) :
    steps (path ++ if closed then [slash] else []) = steps path := by
  cases closed with
  | false => rw [if_neg Bool.false_ne_true, List.append_nil]
  | true =>
    rw [if_pos rfl, steps_append_slash]
    exact List.append_nil _

/-- What comes behind a slash does not change the start of a path. -/
theorem front_append_slash {path : Bytes} (h : path ≠ []) (more : Bytes) :
    front (path ++ slash :: more) = front path := by
  obtain ⟨first, rest, hs⟩ := List.exists_cons_of_ne_nil (List.splitOn_ne_nil slash path)
  have hpath : first = [] → rest ≠ [] := by
    rintro rfl rfl
    have hjoin : [slash].intercalate (path.splitOn slash) = path := List.intercalate_splitOn slash
    rw [hs] at hjoin
    exact h hjoin.symm
  rw [front, front, List.splitOn_append_cons_self, hs]
  by_cases hnil : first = []
  · simp [hnil, hpath hnil, List.splitOn_ne_nil]
  · simp [hnil]

theorem components_append_tail {path : Bytes} (h : path ≠ []) (closed : Bool) :
    components (path ++ if closed then [slash] else []) = components path := by
  rw [components_eq, components_eq, steps_append_tail]
  cases closed with
  | false => rw [if_neg Bool.false_ne_true, List.append_nil]
  | true => rw [if_pos rfl, front_append_slash h]

/-! ## The text of a path -/

/-- The three ways in which a path begins. -/
theorem begin_cases (path : Bytes) :
    components path = steps path ∨
      (∃ rest, path = slash :: rest ∧ components path = .root :: steps rest) ∨
      (∃ rest, path.splitOn slash = [dot] :: rest ∧ components path = .current :: steps path) := by
  have hpath : [slash].intercalate (path.splitOn slash) = path := List.intercalate_splitOn slash
  obtain ⟨first, rest, hs⟩ := List.exists_cons_of_ne_nil (List.splitOn_ne_nil slash path)
  rw [components_eq, front, hs]
  simp only []
  by_cases hnil : first = []
  · cases rest with
    | nil => exact .inl (by rw [if_pos hnil, if_pos rfl, List.nil_append])
    | cons next rest =>
      rw [hs, hnil, List.intercalate_cons_cons, List.nil_append, List.singleton_append] at hpath
      refine .inr (.inl ⟨_, hpath.symm, ?_⟩)
      rw [← hpath, ← components_slash, components_eq, front, hpath, hs]
  · by_cases hdot : first = [dot]
    · exact .inr (.inr ⟨rest, by rw [hdot], by rw [if_neg hnil, if_pos hdot]; rfl⟩)
    · exact .inl (by rw [if_neg hnil, if_neg hdot, List.nil_append])

theorem components_ne_nil {path : Bytes} (h : path ≠ []) : components path ≠ [] := by
  have hpath : [slash].intercalate (path.splitOn slash) = path := List.intercalate_splitOn slash
  obtain ⟨first, rest, hs⟩ := List.exists_cons_of_ne_nil (List.splitOn_ne_nil slash path)
  rw [components, hs]
  simp only []
  by_cases hnil : first = []
  · by_cases hrest : rest = []
    · rw [hs, hnil, hrest] at hpath
      exact absurd hpath.symm h
    · simp [hnil, hrest]
  · by_cases hdot : first = [dot]
    · simp [hdot]
    · by_cases hparent : first = [dot, dot] <;> simp [hnil, hdot, hparent, step?]

/-- The text of a path, from its components. No second slash stands behind the root. -/
def spelling : List Component → Bytes
  | .root :: cs => slash :: joined cs
  | cs => joined cs

theorem spelling_of_inner {cs : List Component} (h : ∀ c ∈ cs, c.Inner) :
    spelling cs = joined cs := by
  unfold spelling
  split
  · exact absurd (h .root List.mem_cons_self).no_slash (by decide)
  · rfl

theorem text_of_step? {piece : Bytes} {c : Component} (h : step? piece = some c) :
    c.text = piece := by
  unfold step? at h
  split at h
  · cases h
  · split at h
    · next hparent =>
      cases h
      exact hparent.symm
    · cases h
      rfl

theorem texts_sublist (pieces : List Bytes) :
    ((pieces.filterMap step?).map Component.text).Sublist pieces := by
  induction pieces with
  | nil => exact .slnil
  | cons piece pieces ih =>
    cases hstep : step? piece with
    | none =>
      rw [List.filterMap_cons_none hstep]
      exact ih.cons piece
    | some c =>
      rw [List.filterMap_cons_some hstep, List.map_cons, text_of_step? hstep]
      exact ih.cons_cons piece

theorem joined_steps_sublist (path : Bytes) : (joined (steps path)).Sublist path := by
  have h : (joined (steps path)).Sublist ([slash].intercalate (path.splitOn slash)) :=
    Text.intercalate_sublist (texts_sublist _)
  rwa [List.intercalate_splitOn] at h

/-- The text of a path is what the path itself has, less what means nothing. -/
theorem spelling_sublist (path : Bytes) : (spelling (components path)).Sublist path := by
  obtain h | ⟨rest, rfl, h⟩ | ⟨rest, hs, h⟩ := begin_cases path
  · rw [h, spelling_of_inner fun c => inner_of_mem_steps]
    exact joined_steps_sublist path
  · rw [h, spelling]
    exact (joined_steps_sublist rest).cons_cons slash
  · have htexts : ((steps path).map Component.text).Sublist rest := by
      rw [steps, hs, List.filterMap_cons_none (by decide)]
      exact texts_sublist rest
    calc (spelling (components path)).Sublist ([slash].intercalate ([dot] :: rest)) := by
          rw [h]
          exact Text.intercalate_sublist (htexts.cons_cons [dot])
      _ = path := by rw [← hs, List.intercalate_splitOn]

/-- A path is read from its text again. -/
theorem components_spelling {path : Bytes} (h : path ≠ []) :
    components (spelling (components path)) = components path := by
  have hinner : ∀ c ∈ steps path, c.Inner := fun c => inner_of_mem_steps
  obtain hbegin | ⟨rest, rfl, hbegin⟩ | ⟨rest, hs, hbegin⟩ := begin_cases path
  · rw [hbegin, spelling_of_inner hinner]
    exact components_joined hinner (hbegin ▸ components_ne_nil h)
  · rw [hbegin, spelling, components_slash, steps_joined fun c => inner_of_mem_steps]
  · rw [hbegin]
    exact components_joined_current hinner

end Path

end TagRegistry
