import Mathlib.Data.List.DropRight
import TagRegistry.Proofs.PathSteps

/-! The directory of a path, and paths below a directory.

The directory of a path is a front of its text: what is left without the last step, and without
what means nothing in front of that step. A relative path goes behind the directory, an absolute
one is on its own. -/

namespace TagRegistry

open Bytes (slash dot)

namespace Path

variable {path directory other name z : Bytes} {pieces kept : List Bytes} {c : Component}

/-! ## Settled paths -/

/-- A path that does not end in what means nothing. -/
def Settled (path : Bytes) : Prop :=
  path = [slash] ∨ ¬[slash] <:+ path ∧ ¬[slash, dot] <:+ path

theorem step?_eq_none_iff : step? z = none ↔ z = [] ∨ z = [dot] := by
  unfold step?
  split
  · next h => exact iff_of_true rfl h
  · next h => exact iff_of_false (by split <;> exact nofun) h

/-- The last piece of a settled path means something, unless it is the only one. -/
theorem Settled.exists_step (h : Settled path) (hroot : path ≠ [slash])
    (hsplit : path.splitOn slash = pieces ++ [z]) (hne : pieces ≠ []) : ∃ c, step? z = some c := by
  obtain ⟨hslash, hdot⟩ := h.resolve_left hroot
  have hpath : path = [slash].intercalate pieces ++ slash :: z := by
    rw [← Text.intercalate_concat hne, ← hsplit, List.intercalate_splitOn]
  rw [← Option.ne_none_iff_exists', ne_eq, step?_eq_none_iff]
  rintro (rfl | rfl)
  · exact hslash ⟨_, hpath.symm⟩
  · exact hdot ⟨_, hpath.symm⟩

/-- What ends in a piece that means something is settled. -/
theorem settled_append (above : Bytes) (hz : step? z = some c) (hslash : slash ∉ z) :
    Settled (above ++ z) := by
  have hmeans : z ≠ [] ∧ z ≠ [dot] := by
    rw [← not_or, ← step?_eq_none_iff, hz]
    exact nofun
  refine .inr ⟨fun hend => ?_, fun hend => ?_⟩
  · obtain h | h := List.suffix_or_suffix_of_suffix hend (List.suffix_append above z)
    · exact hslash (h.subset (List.mem_singleton_self slash))
    · obtain h | h := List.sublist_singleton.mp h.sublist
      · exact hmeans.1 h
      · exact hslash (h ▸ List.mem_singleton_self slash)
  · obtain h | h := List.suffix_or_suffix_of_suffix hend (List.suffix_append above z)
    · exact hslash (h.subset List.mem_cons_self)
    · obtain h | h := List.suffix_cons_iff.mp h
      · exact hslash (h ▸ List.mem_cons_self)
      · obtain h | h := List.sublist_singleton.mp h.sublist
        · exact hmeans.1 h
        · exact hmeans.2 h

/-! ## Paths that are fronts of others -/

theorem steps_eq_filter (path : Bytes) :
    steps path = (components path).filter fun c => c ≠ .root ∧ c ≠ .current := by
  have hfront : (front path).filter (fun c => c ≠ .root ∧ c ≠ .current) = [] := by
    rw [List.filter_eq_nil_iff]
    intro c hc
    obtain rfl | rfl := root_or_current_of_mem_front hc <;> decide
  have hsteps : (steps path).filter (fun c => c ≠ .root ∧ c ≠ .current) = steps path := by
    rw [List.filter_eq_self]
    intro c hc
    have hinner := (inner_of_mem_steps hc).step
    cases c with
    | root | current => cases hinner
    | parent | normal => simp
  rw [components_eq, List.filter_append, hfront, hsteps, List.nil_append]

/-- Text behind a path goes on with its last piece. -/
theorem splitOn_append (path more : Bytes) : ∃ before last first rest,
    path.splitOn slash = before ++ [last] ∧ more.splitOn slash = first :: rest ∧
      (path ++ more).splitOn slash = before ++ (last ++ first) :: rest := by
  induction path with
  | nil =>
    obtain ⟨first, rest, hmore⟩ := List.exists_cons_of_ne_nil (List.splitOn_ne_nil slash more)
    exact ⟨[], [], first, rest, rfl, hmore, hmore⟩
  | cons b path ih =>
    obtain ⟨before, last, first, rest, hpath, hmore, hall⟩ := ih
    simp only [List.cons_append, List.splitOn_cons_eq_if_modifyHead, hpath, hall]
    split
    · exact ⟨[] :: before, last, first, rest, rfl, hmore, rfl⟩
    · cases before with
      | nil => exact ⟨[], b :: last, first, rest, rfl, hmore, rfl⟩
      | cons piece before => exact ⟨(b :: piece) :: before, last, first, rest, rfl, hmore, rfl⟩

theorem filterMap_step?_append (before rest : List Bytes) (z : Bytes) :
    (before ++ z :: rest).filterMap step? =
      before.filterMap step? ++ ((step? z).toList ++ rest.filterMap step?) := by
  rw [List.filterMap_append]
  cases h : step? z with
  | none => rw [List.filterMap_cons_none h, Option.toList_none, List.nil_append]
  | some c => rw [List.filterMap_cons_some h, Option.toList_some, List.singleton_append]

/-- A piece that means something still does with more text behind it. -/
theorem exists_step_append {last : Bytes} (h : step? last = some c) (first : Bytes) :
    ∃ c', step? (last ++ first) = some c' := by
  rw [← Option.ne_none_iff_exists', ne_eq, step?_eq_none_iff, List.append_eq_nil_iff,
    List.append_eq_singleton_iff]
  have hlast : last ≠ [] ∧ last ≠ [dot] := by
    rw [← not_or, ← step?_eq_none_iff, h]
    exact nofun
  simp [hlast]

theorem steps_eq_of_components (h : components other = components path) :
    steps other = steps path := by
  rw [steps_eq_filter, h, ← steps_eq_filter]

section Longer

variable {before rest : List Bytes} {last first : Bytes}

/-- What two paths make of the pieces in which they differ, if they lead through the same steps. -/
theorem step_eq_of_steps (hother : other.splitOn slash = before ++ [last])
    (hpath : path.splitOn slash = before ++ (last ++ first) :: rest)
    (hsame : steps other = steps path) :
    (step? last).toList = (step? (last ++ first)).toList ++ rest.filterMap step? := by
  rw [steps, steps, hother, hpath, filterMap_step?_append, filterMap_step?_append,
    List.append_cancel_left_eq, List.filterMap_nil, List.append_nil] at hsame
  exact hsame

/-- No text and a single dot are not the same path. -/
theorem components_ne_of_longer (hfirst : first ≠ []) (hother : other.splitOn slash = [last])
    (hpath : path.splitOn slash = [last ++ first]) (hstep : step? (last ++ first) = none) :
    components other ≠ components path := by
  have hwhole : [slash].intercalate (path.splitOn slash) = path := List.intercalate_splitOn slash
  have hpart : [slash].intercalate (other.splitOn slash) = other := List.intercalate_splitOn slash
  rw [hpath, List.intercalate_singleton] at hwhole
  rw [hother, List.intercalate_singleton] at hpart
  rw [step?_eq_none_iff, List.append_eq_nil_iff, List.append_eq_singleton_iff] at hstep
  simp only [hfirst, and_false, false_or, or_false] at hstep
  rw [← hwhole, ← hpart, hstep.1, hstep.2]
  exact nofun

end Longer

/-- No other front of a settled path leads through the same steps. -/
theorem Settled.eq_of_front (h : Settled path) (hfront : other <+: path)
    (hsame : components other = components path) : other = path := by
  obtain ⟨more, rfl⟩ := hfront
  by_contra hne
  have hmore : more ≠ [] := fun hnil => hne (by rw [hnil, List.append_nil])
  by_cases hroot : other ++ more = [slash]
  · obtain ⟨rfl, rfl⟩ := (List.append_eq_singleton_iff.mp hroot).resolve_right fun h => hmore h.2
    cases hsame
  obtain ⟨before, last, first, rest, hother, hfirst, hall⟩ := splitOn_append other more
  have hsteps := step_eq_of_steps hother hall (steps_eq_of_components hsame)
  obtain rfl | ⟨rest, z, rfl⟩ := List.eq_nil_or_concat' rest
  · -- Both end in the same piece, which is longer in one of them.
    rw [List.filterMap_nil, List.append_nil] at hsteps
    have hlonger : first ≠ [] := by
      rintro rfl
      have htext : [slash].intercalate (more.splitOn slash) = more := List.intercalate_splitOn slash
      rw [hfirst] at htext
      exact hmore htext.symm
    cases hstep : step? (last ++ first) with
    | some c =>
      rw [hstep, Option.toList_some, Option.toList_eq_singleton_iff] at hsteps
      have htext := (text_of_step? hsteps).symm.trans (text_of_step? hstep)
      exact hlonger (List.self_eq_append_right.mp htext)
    | none =>
      cases before with
      | nil => exact components_ne_of_longer hlonger hother hall hstep hsame
      | cons piece before =>
        obtain ⟨c, hc⟩ := h.exists_step hroot hall (List.cons_ne_nil piece before)
        rw [hstep] at hc
        cases hc
  · -- The last piece of the longer one is a step that the other one does not have.
    rw [← List.cons_append, ← List.append_assoc] at hall
    obtain ⟨c, hz⟩ := h.exists_step hroot hall (by simp)
    rw [filterMap_step?_append, hz] at hsteps
    cases hlast : step? last with
    | none => simp [hlast] at hsteps
    | some c' =>
      obtain ⟨c'', hlonger⟩ := exists_step_append hlast first
      rw [hlast, hlonger] at hsteps
      simp at hsteps

/-! ## The start of a path -/

theorem steps_intercalate (hslash : ∀ piece ∈ kept, slash ∉ piece) :
    steps ([slash].intercalate kept) = kept.filterMap step? := by
  by_cases hne : kept = []
  · subst hne
    rfl
  · rw [steps, List.splitOn_intercalate slash hslash hne]

/-- A dot in front of nothing or of a slash is the current directory. -/
theorem components_dot (h : path = [] ∨ ∃ rest, path = slash :: rest) :
    components (dot :: path) = .current :: steps path := by
  obtain rfl | ⟨rest, rfl⟩ := h
  · rfl
  · have hsplit : (dot :: slash :: rest).splitOn slash = [dot] :: rest.splitOn slash :=
      List.splitOn_append_cons_self [dot] rest
    have hrest : steps (slash :: rest) = steps rest := steps_append_slash [] rest
    rw [components_eq, front, steps, hsplit, hrest]
    rfl

/-- A path is its start and a body, and fronts of the body are led to by the same start. -/
structure Begins (path head body : Bytes) (cs : List Component) : Prop where
  split : splitHead path = (head, body)
  text : path = head ++ body
  whole : components path = cs ++ steps body
  part : ∀ kept, kept <+: body.splitOn slash →
    components (head ++ [slash].intercalate kept) = cs ++ kept.filterMap step?
  known : head = [] ∧ cs = [] ∨ head = [slash] ∧ cs = [.root] ∨ head = [dot] ∧ cs = [.current]

theorem slash_notMem_of_front (h : kept <+: path.splitOn slash) : ∀ piece ∈ kept, slash ∉ piece :=
  fun _ hmem => Text.not_mem_of_mem_splitOn (h.subset hmem)

theorem front_of_split {first : Bytes} {rest : List Bytes}
    (hsplit : path.splitOn slash = first :: rest) (hroot : ¬(first = [] ∧ rest ≠ []))
    (hdot : first ≠ [dot]) : front path = [] := by
  rw [front, hsplit]
  by_cases hnil : first = []
  · have hrest : rest = [] := by
      by_contra hrest
      exact hroot ⟨hnil, hrest⟩
    simp [hnil, hrest]
  · simp [hnil, hdot]

/-- A path from the root begins with a slash. -/
theorem begins_slash {rest : List Bytes} (hsplit : path.splitOn slash = [] :: rest)
    (hrest : rest ≠ []) : ∃ body, Begins path [slash] body [.root] := by
  have hpath : [slash].intercalate (path.splitOn slash) = path := List.intercalate_splitOn slash
  rw [hsplit] at hpath
  obtain ⟨body, rfl⟩ : ∃ body, path = slash :: body := by
    obtain ⟨next, rest, rfl⟩ := List.exists_cons_of_ne_nil hrest
    rw [List.intercalate_cons_cons] at hpath
    exact ⟨_, hpath.symm⟩
  refine ⟨body, ?_, rfl, components_slash body, fun kept hkept => ?_, .inr (.inl ⟨rfl, rfl⟩)⟩
  · rw [splitHead, hsplit]
    exact if_pos ⟨rfl, hrest⟩
  · rw [List.singleton_append, components_slash, steps_intercalate (slash_notMem_of_front hkept)]
    rfl

/-- A path whose first piece is a dot begins with that. -/
theorem begins_dot {rest : List Bytes} (hsplit : path.splitOn slash = [dot] :: rest) :
    ∃ body, Begins path [dot] body [.current] := by
  have hpath : [slash].intercalate (path.splitOn slash) = path := List.intercalate_splitOn slash
  rw [hsplit] at hpath
  obtain ⟨body, rfl, hbody⟩ : ∃ body, path = dot :: body ∧
      (body = [] ∨ ∃ rest, body = slash :: rest) := by
    cases rest with
    | nil => exact ⟨[], hpath.symm, .inl rfl⟩
    | cons next rest =>
      rw [List.intercalate_cons_cons] at hpath
      exact ⟨_, hpath.symm, .inr ⟨_, rfl⟩⟩
  refine ⟨body, ?_, rfl, components_dot hbody, fun kept hkept => ?_, .inr (.inr ⟨rfl, rfl⟩)⟩
  · rw [splitHead, hsplit]
    exact (if_neg (by simp)).trans (if_pos rfl)
  · rw [List.singleton_append, components_dot, steps_intercalate (slash_notMem_of_front hkept)]
    · rfl
    · -- The body has an empty piece in front, and so has what is kept of it.
      have hempty : ∃ tail, body.splitOn slash = [] :: tail := by
        obtain rfl | ⟨rest, rfl⟩ := hbody
        · exact ⟨[], rfl⟩
        · exact ⟨_, List.splitOn_append_cons_self [] rest⟩
      obtain ⟨tail, hempty⟩ := hempty
      rw [hempty, List.prefix_cons_iff] at hkept
      obtain rfl | ⟨kept, rfl, -⟩ := hkept
      · exact .inl rfl
      · cases kept with
        | nil => exact .inl rfl
        | cons next kept => exact .inr ⟨_, List.intercalate_cons_cons⟩

/-- Any other path begins with its first step, if it has steps. -/
theorem begins_nil {first : Bytes} {rest : List Bytes}
    (hsplit : path.splitOn slash = first :: rest) (hroot : ¬(first = [] ∧ rest ≠ []))
    (hdot : first ≠ [dot]) : Begins path [] path [] := by
  refine ⟨?_, rfl, ?_, fun kept hkept => ?_, .inl ⟨rfl, rfl⟩⟩
  · rw [splitHead, hsplit]
    exact (if_neg hroot).trans (if_neg hdot)
  · rw [components_eq, front_of_split hsplit hroot hdot]
  · cases kept with
    | nil => rfl
    | cons next kept =>
      have hslash := slash_notMem_of_front hkept
      rw [hsplit, List.cons_prefix_cons] at hkept
      obtain ⟨rfl, hrest⟩ := hkept
      have hnext : ¬(next = [] ∧ kept ≠ []) := fun h =>
        hroot ⟨h.1, fun hnil => h.2 (List.prefix_nil.mp (hnil ▸ hrest))⟩
      rw [List.nil_append, components_eq, steps_intercalate hslash, front_of_split
        (List.splitOn_intercalate slash hslash (List.cons_ne_nil next kept)) hnext hdot]

theorem exists_begins (path : Bytes) : ∃ head body cs, Begins path head body cs := by
  obtain ⟨first, rest, hsplit⟩ := List.exists_cons_of_ne_nil (List.splitOn_ne_nil slash path)
  by_cases hroot : first = [] ∧ rest ≠ []
  · obtain ⟨rfl, hrest⟩ := hroot
    obtain ⟨body, hbegins⟩ := begins_slash hsplit hrest
    exact ⟨_, _, _, hbegins⟩
  by_cases hdot : first = [dot]
  · subst hdot
    obtain ⟨body, hbegins⟩ := begins_dot hsplit
    exact ⟨_, _, _, hbegins⟩
  · exact ⟨_, _, _, begins_nil hsplit hroot hdot⟩

/-! ## The directory of a path -/

/-- The directory in which a path names something: the front of its text that leads through all
steps but the last one. -/
structure DirectoryOf (path directory : Bytes) : Prop where
  front : directory <+: path
  steps : ∃ last, last ≠ .root ∧ components path = components directory ++ [last]
  settled : Settled directory

/-- There is one directory at most. -/
theorem DirectoryOf.unique (h : DirectoryOf path directory) (h' : DirectoryOf path other) :
    directory = other := by
  have hsame : components directory = components other := by
    obtain ⟨last, -, hlast⟩ := h.steps
    obtain ⟨last', -, hlast'⟩ := h'.steps
    rw [hlast, List.append_singleton_inj] at hlast'
    exact hlast'.1
  obtain hfront | hfront := List.prefix_or_prefix_of_prefix h.front h'.front
  · exact h'.settled.eq_of_front hfront hsame
  · exact (h.settled.eq_of_front hfront hsame.symm).symm

theorem trimPieces_front (pieces : List Bytes) : trimPieces pieces <+: pieces :=
  List.rdropWhile_prefix _ _

theorem exists_step_of_trimPieces (h : trimPieces pieces = kept ++ [z]) :
    ∃ c, step? z = some c := by
  have hne : pieces.rdropWhile (fun piece => piece == [] || piece == [dot]) ≠ [] := by
    intro hnil
    exact List.append_ne_nil_of_right_ne_nil kept (List.cons_ne_nil z []) (h.symm.trans hnil)
  have hlast := List.rdropWhile_last_not _ _ hne
  have hz : (pieces.rdropWhile fun piece => piece == [] || piece == [dot]).getLast hne = z := by
    rw [← List.getLast_concat (a := z) (l := kept)]
    exact List.getLast_congr hne (by simp) h
  rw [hz] at hlast
  rw [← Option.ne_none_iff_exists', ne_eq, step?_eq_none_iff]
  simpa using hlast

theorem filterMap_trimPieces (pieces : List Bytes) :
    (trimPieces pieces).filterMap step? = pieces.filterMap step? := by
  induction pieces using List.reverseRecOn with
  | nil => rfl
  | append_singleton pieces z ih =>
    have htrim : trimPieces (pieces ++ [z]) =
        if step? z = none then trimPieces pieces else pieces ++ [z] := by
      refine (List.rdropWhile_concat _ pieces z).trans ?_
      simp only [step?_eq_none_iff, Bool.or_eq_true, beq_iff_eq]
      rfl
    rw [htrim]
    split
    · next hz => rw [ih, filterMap_step?_append, hz]; simp
    · rfl

theorem ne_root_of_step? (h : step? z = some c) : c ≠ .root := by
  rintro rfl
  unfold step? at h
  split at h
  · cases h
  · split at h <;> cases h

theorem intercalate_front (h : kept <+: pieces) :
    [slash].intercalate kept <+: [slash].intercalate pieces := by
  obtain ⟨rest, rfl⟩ := h
  induction rest using List.reverseRecOn with
  | nil => simp
  | append_singleton rest z ih =>
    refine ih.trans ?_
    by_cases hne : kept ++ rest = []
    · simp [hne]
    · rw [← List.append_assoc, Text.intercalate_concat hne]
      exact List.prefix_append _ _

/-- The start of a path with pieces behind it of which the last means something is settled, and so is
the start by itself. -/
theorem Begins.settled {head body : Bytes} {cs : List Component} (h : Begins path head body cs)
    (hkept : kept <+: body.splitOn slash)
    (hlast : ∀ {before z}, kept = before ++ [z] → ∃ c, step? z = some c) :
    Settled (head ++ [slash].intercalate kept) := by
  obtain rfl | ⟨before, z, rfl⟩ := List.eq_nil_or_concat' kept
  · obtain ⟨rfl, -⟩ | ⟨rfl, -⟩ | ⟨rfl, -⟩ := h.known
    · exact .inr ⟨by decide, by decide⟩
    · exact .inl rfl
    · exact .inr ⟨by decide, by decide⟩
  · obtain ⟨c, hc⟩ := hlast rfl
    have hz := slash_notMem_of_front hkept z (by simp)
    by_cases hne : before = []
    · rw [hne, List.nil_append, List.intercalate_singleton]
      exact settled_append head hc hz
    · rw [Text.intercalate_concat hne, List.append_cons, ← List.append_assoc]
      exact settled_append _ hc hz

/-- What `parent?` gives is the directory. -/
theorem directoryOf_of_parent? (h : parent? path = some directory) :
    DirectoryOf path directory := by
  obtain ⟨head, body, cs, hbegins⟩ := exists_begins path
  have hsteps := filterMap_trimPieces (body.splitOn slash)
  rw [parent?, hbegins.split] at h
  simp only at h
  split at h
  · next last before htrim =>
    rw [List.reverse_eq_cons_iff] at htrim
    obtain ⟨c, hc⟩ := exists_step_of_trimPieces htrim
    have hkept := (trimPieces_front before.reverse).trans
      ((List.prefix_append _ _).trans (htrim ▸ trimPieces_front _))
    rw [htrim, filterMap_step?_append, hc, ← filterMap_trimPieces before.reverse] at hsteps
    obtain rfl := Option.some.inj h
    refine ⟨?_, ⟨c, ne_root_of_step? hc, ?_⟩, hbegins.settled hkept exists_step_of_trimPieces⟩
    · have hfront := intercalate_front hkept
      rw [List.intercalate_splitOn] at hfront
      rw [hbegins.text]
      exact (List.prefix_append_right_inj head).mpr hfront
    · rw [hbegins.whole, hbegins.part _ hkept, steps, ← hsteps, List.append_assoc]
      rfl
  · next htrim =>
    rw [List.reverse_eq_nil_iff] at htrim
    rw [htrim] at hsteps
    obtain ⟨hhead, hdirectory⟩ := Option.ite_none_right_eq_some.mp h
    obtain rfl := Option.some.inj hdirectory
    have hcurrent : cs = [.current] := by
      obtain ⟨rfl, -⟩ | ⟨rfl, -⟩ | ⟨-, rfl⟩ := hbegins.known
      · cases hhead
      · cases hhead
      · rfl
    refine ⟨List.nil_prefix, ⟨.current, by decide, ?_⟩, .inr ⟨by decide, by decide⟩⟩
    rw [hbegins.whole, steps, ← hsteps, hcurrent]
    rfl

/-- A path without steps, or of the root alone, has no directory. -/
theorem components_of_parent?_eq_none (h : parent? path = none) :
    components path = [] ∨ components path = [.root] := by
  obtain ⟨head, body, cs, hbegins⟩ := exists_begins path
  have hsteps := filterMap_trimPieces (body.splitOn slash)
  rw [parent?, hbegins.split] at h
  simp only at h
  split at h
  · cases h
  · next htrim =>
    rw [List.reverse_eq_nil_iff] at htrim
    rw [htrim] at hsteps
    rw [hbegins.whole, steps, ← hsteps, List.filterMap_nil, List.append_nil]
    obtain ⟨-, rfl⟩ | ⟨-, rfl⟩ | ⟨rfl, -⟩ := hbegins.known
    · exact .inl rfl
    · exact .inr rfl
    · cases h

theorem parent?_eq_none_iff : parent? path = none ↔ ∀ directory, ¬DirectoryOf path directory := by
  constructor
  · intro h directory hdirectory
    obtain ⟨last, hlast, hsteps⟩ := hdirectory.steps
    obtain hnil | hroot := components_of_parent?_eq_none h
    · rw [hnil] at hsteps
      exact List.append_ne_nil_of_right_ne_nil _ (List.cons_ne_nil last []) hsteps.symm
    · rw [hroot, eq_comm, List.append_eq_singleton_iff] at hsteps
      obtain ⟨-, hroot⟩ | ⟨-, hnil⟩ := hsteps
      · exact hlast (List.cons.inj hroot).1
      · cases hnil
  · intro h
    cases hparent : parent? path with
    | none => rfl
    | some directory => exact absurd (directoryOf_of_parent? hparent) (h directory)

theorem parent?_eq_some_iff : parent? path = some directory ↔ DirectoryOf path directory := by
  refine ⟨directoryOf_of_parent?, fun h => ?_⟩
  cases hparent : parent? path with
  | none => exact absurd h (parent?_eq_none_iff.mp hparent directory)
  | some other => rw [(directoryOf_of_parent? hparent).unique h]

/-! ## Files in a directory -/

theorem steps_name (hname : step? name = some c) (hslash : slash ∉ name) : steps name = [c] := by
  rw [steps, List.splitOn_eq_singleton hslash, List.filterMap_cons_some hname]
  rfl

/-- What stands in front of a name is its directory. -/
theorem directoryOf_below (hdirectory : Settled directory) (hne : directory ≠ [])
    (hname : step? name = some c) (hslash : slash ∉ name) :
    DirectoryOf (directory ++ slash :: name) directory where
  front := List.prefix_append _ _
  steps := by
    refine ⟨c, ne_root_of_step? hname, ?_⟩
    rw [components_eq, components_eq, front_append_slash hne, steps_append_slash,
      steps_name hname hslash, List.append_assoc]
  settled := hdirectory

theorem directoryOf_root (hname : step? name = some c) (hslash : slash ∉ name) :
    DirectoryOf (slash :: name) [slash] where
  front := ⟨name, rfl⟩
  steps := by
    refine ⟨c, ne_root_of_step? hname, ?_⟩
    rw [components_slash, steps_name hname hslash]
    rfl
  settled := .inl rfl

/-- A name by itself is in no further directory. -/
theorem directoryOf_name (hname : step? name = some c) (hslash : slash ∉ name) :
    DirectoryOf name [] where
  front := List.nil_prefix
  steps := by
    have hdot : name ≠ [dot] := by
      rintro rfl
      cases hname
    refine ⟨c, ne_root_of_step? hname, ?_⟩
    rw [components_eq, front_of_split (List.splitOn_eq_singleton hslash) (fun h => h.2 rfl) hdot,
      steps_name hname hslash]
    rfl
  settled := .inr ⟨by decide, by decide⟩

/-! ## Paths below a directory -/

theorem join_absolute (h : isAbsolute path = true) : join directory path = path := by
  rw [join, if_pos h]

theorem join_nil (path : Bytes) : join [] path = path := by
  rw [join]
  split <;> rfl

theorem join_root (h : isAbsolute path = false) : join [slash] path = slash :: path := by
  rw [join, h]
  rfl

/-- A relative path goes behind a directory and a slash. -/
theorem join_below (h : isAbsolute path = false) (hdirectory : Settled directory)
    (hne : directory ≠ []) (hroot : directory ≠ [slash]) :
    join directory path = directory ++ slash :: path := by
  have hslash : endsWithSlash directory = false := by
    rw [endsWithSlash, beq_eq_false_iff_ne]
    intro hlast
    obtain ⟨front, rfl⟩ := List.getLast?_eq_some_iff.mp hlast
    exact (hdirectory.resolve_left hroot).1 (List.suffix_append _ _)
  rw [join, h, hslash, List.isEmpty_eq_false_iff.mpr hne]
  exact List.append_assoc _ _ _

theorem isAbsolute_iff : isAbsolute path = true ↔ ∃ rest, path = slash :: rest := by
  rw [isAbsolute, beq_iff_eq, List.head?_eq_some_iff]

/-- Where a path leads that stands in a file: an absolute one by itself, and a relative one below the
directory of the file, which is the current one if the path of the file has none. -/
inductive ResolvedFrom (file path : Bytes) : Bytes → Prop where
  | absolute (absolute : ∃ rest, path = slash :: rest) : ResolvedFrom file path path
  | below {directory : Bytes} (relative : ¬∃ rest, path = slash :: rest)
      (above : DirectoryOf file directory) (named : directory ≠ []) (notRoot : directory ≠ [slash]) :
      ResolvedFrom file path (directory ++ slash :: path)
  | belowRoot (relative : ¬∃ rest, path = slash :: rest) (above : DirectoryOf file [slash]) :
      ResolvedFrom file path (slash :: path)
  | beside (relative : ¬∃ rest, path = slash :: rest) (above : DirectoryOf file []) :
      ResolvedFrom file path path
  | nowhere (relative : ¬∃ rest, path = slash :: rest)
      (above : ∀ directory, ¬DirectoryOf file directory) :
      ResolvedFrom file path (dot :: slash :: path)

theorem settled_dot : Settled [dot] := .inr ⟨by decide, by decide⟩

theorem ResolvedFrom.eq_join {file place : Bytes} (h : ResolvedFrom file path place) :
    place = join ((parent? file).getD [dot]) path := by
  cases h with
  | absolute absolute => rw [join_absolute (isAbsolute_iff.mpr absolute)]
  | below relative above named notRoot =>
    rw [← isAbsolute_iff, Bool.not_eq_true] at relative
    rw [parent?_eq_some_iff.mpr above, Option.getD_some,
      join_below relative above.settled named notRoot]
  | belowRoot relative above =>
    rw [← isAbsolute_iff, Bool.not_eq_true] at relative
    rw [parent?_eq_some_iff.mpr above, Option.getD_some, join_root relative]
  | beside relative above => rw [parent?_eq_some_iff.mpr above, Option.getD_some, join_nil]
  | nowhere relative above =>
    rw [← isAbsolute_iff, Bool.not_eq_true] at relative
    rw [parent?_eq_none_iff.mpr above, Option.getD_none,
      join_below relative settled_dot (by decide) (by decide)]
    rfl

theorem resolvedFrom_join (file path : Bytes) :
    ResolvedFrom file path (join ((parent? file).getD [dot]) path) := by
  cases habsolute : isAbsolute path with
  | true =>
    rw [join_absolute habsolute]
    exact .absolute (isAbsolute_iff.mp habsolute)
  | false =>
    have hrelative : ¬∃ rest, path = slash :: rest := by
      rw [← isAbsolute_iff, habsolute]
      exact Bool.false_ne_true
    cases hparent : parent? file with
    | none =>
      rw [Option.getD_none, join_below habsolute settled_dot (by decide) (by decide)]
      exact .nowhere hrelative (parent?_eq_none_iff.mp hparent)
    | some directory =>
      have hdirectory := parent?_eq_some_iff.mp hparent
      rw [Option.getD_some]
      by_cases hne : directory = []
      · subst hne
        rw [join_nil]
        exact .beside hrelative hdirectory
      by_cases hroot : directory = [slash]
      · subst hroot
        rw [join_root habsolute]
        exact .belowRoot hrelative hdirectory
      · rw [join_below habsolute hdirectory.settled hne hroot]
        exact .below hrelative hdirectory hne hroot

/-- Joining a path to the directory of a file resolves it, and gives the only place it leads to. -/
theorem resolvedFrom_iff {file place : Bytes} :
    ResolvedFrom file path place ↔ place = join ((parent? file).getD [dot]) path := by
  refine ⟨ResolvedFrom.eq_join, fun h => ?_⟩
  rw [h]
  exact resolvedFrom_join file path

end Path

end TagRegistry
