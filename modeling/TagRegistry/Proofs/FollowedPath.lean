import TagRegistry.Disk.Basic
import TagRegistry.Proofs.PathSteps

/-! Following a path in two parts.

A path below a directory leads where the path leads from the place of the directory. On the way
through the directory links are used up and something may be refused, so that from the place itself
more can be reached, but nothing else. -/

namespace TagRegistry

namespace Disk

open Bytes (slash dot)

variable {d : Disk} {mayBeNew : Bool} {links links' : Nat} {here place result : Place}
  {step directory path : Bytes} {steps rest more : List Bytes} {node : Node}

/-! ## What is there, whoever asks -/

/-- The same files, directories and links, with nothing refused. -/
def unrestricted (d : Disk) : Disk := { d with refusals := [] }

@[simp] theorem node?_unrestricted (d : Disk) (place : Place) :
    d.unrestricted.node? place = d.node? place := rfl

theorem node?_of_look {found : Option Node} (h : d.look place = .ok found) :
    d.node? place = found := by
  rw [look] at h
  cases hnode : d.node? place with
  | none =>
    rw [hnode] at h
    exact Except.ok.inj h
  | some node =>
    rw [hnode] at h
    simp only at h
    cases hask : d.ask place .inspect with
    | error cause =>
      rw [hask] at h
      cases h
    | ok u =>
      rw [hask] at h
      exact Except.ok.inj h

theorem look_unrestricted (h : d.look place = .ok (some node)) :
    d.unrestricted.look place = .ok (some node) := by
  rw [look, node?_unrestricted, node?_of_look h]
  rfl

/-! ## One step -/

/-- A name is found in a directory that may be searched. -/
structure Finds (d : Disk) (here : Place) (step : Bytes) (node : Node) : Prop where
  search : d.ask here .search = .ok ()
  ne_nil : step ≠ []
  ne_dot : step ≠ [dot]
  ne_dotDot : step ≠ [dot, dot]
  fits : step.length ≤ nameLimit
  found : d.look (step :: here) = .ok (some node)

theorem Finds.unrestricted (h : Finds d here step node) : Finds d.unrestricted here step node :=
  { h with search := rfl, found := look_unrestricted h.found }

@[simp] theorem walk_nil : d.walk mayBeNew links here [] = .ok here := by
  rw [walk]

@[simp] theorem walk_empty :
    d.walk mayBeNew links here ([] :: rest) = d.walk mayBeNew links here rest := by
  rw [walk, if_pos rfl]

theorem walk_current (h : d.ask here .search = .ok ()) :
    d.walk mayBeNew links here ([dot] :: rest) = d.walk mayBeNew links here rest := by
  rw [walk, if_neg (by decide), h]
  exact if_pos rfl

theorem walk_parent (h : d.ask here .search = .ok ()) :
    d.walk mayBeNew links here ([dot, dot] :: rest) = d.walk mayBeNew links here.tail rest := by
  rw [walk, if_neg (by decide), h]
  exact (if_neg (by decide)).trans (if_pos rfl)

theorem walk_directory (h : Finds d here step .directory) :
    d.walk mayBeNew links here (step :: rest) = d.walk mayBeNew links (step :: here) rest := by
  rw [walk, if_neg h.ne_nil, h.search]
  simp only [h.ne_dot, h.ne_dotDot, Nat.not_lt.mpr h.fits, if_false, h.found]

theorem walk_file {content : Bytes} (h : Finds d here step (.file content)) :
    d.walk mayBeNew links here [step] = .ok (step :: here) := by
  rw [walk, if_neg h.ne_nil, h.search]
  simp only [h.ne_dot, h.ne_dotDot, Nat.not_lt.mpr h.fits, if_false, h.found]
  rfl

theorem walk_link {target : Bytes} (h : Finds d here step (.link target)) :
    d.walk mayBeNew (links + 1) here (step :: rest) =
      d.walk mayBeNew links (startOf here target) (stepsOf target ++ rest) := by
  rw [walk, if_neg h.ne_nil, h.search]
  simp only [h.ne_dot, h.ne_dotDot, Nat.not_lt.mpr h.fits, if_false, h.found]

/-! ## Where steps lead -/

/-- Steps lead from a place to something that is there. -/
inductive Leads (d : Disk) : Nat → Place → List Bytes → Place → Prop where
  | arrived {links : Nat} {here : Place} : Leads d links here [] here
  | empty {links : Nat} {here place : Place} {rest : List Bytes}
      (onward : Leads d links here rest place) : Leads d links here ([] :: rest) place
  | current {links : Nat} {here place : Place} {rest : List Bytes}
      (search : d.ask here .search = .ok ()) (onward : Leads d links here rest place) :
      Leads d links here ([dot] :: rest) place
  | parent {links : Nat} {here place : Place} {rest : List Bytes}
      (search : d.ask here .search = .ok ()) (onward : Leads d links here.tail rest place) :
      Leads d links here ([dot, dot] :: rest) place
  | directory {links : Nat} {here place : Place} {step : Bytes} {rest : List Bytes}
      (finds : Finds d here step .directory) (onward : Leads d links (step :: here) rest place) :
      Leads d links here (step :: rest) place
  | file {links : Nat} {here : Place} {step content : Bytes}
      (finds : Finds d here step (.file content)) : Leads d links here [step] (step :: here)
  | link {links : Nat} {here place : Place} {step target : Bytes} {rest : List Bytes}
      (finds : Finds d here step (.link target))
      (onward : Leads d links (startOf here target) (stepsOf target ++ rest) place) :
      Leads d (links + 1) here (step :: rest) place

theorem Leads.walk_eq (h : Leads d links here steps place) :
    d.walk mayBeNew links here steps = .ok place := by
  induction h with
  | arrived => exact walk_nil
  | empty _ ih => rw [walk_empty, ih]
  | current search _ ih => rw [walk_current search, ih]
  | parent search _ ih => rw [walk_parent search, ih]
  | directory finds _ ih => rw [walk_directory finds, ih]
  | file finds => exact walk_file finds
  | link finds _ ih => rw [walk_link finds, ih]

theorem leads_of_walk (h : d.walk false links here steps = .ok place) :
    Leads d links here steps place := by
  fun_induction d.walk false links here steps with
  | case1 =>
    cases h
    exact .arrived
  | case2 _ _ _ ih => exact .empty (ih h)
  | case4 _ _ _ search _ ih => exact .current search (ih h)
  | case5 _ _ _ search _ _ ih => exact .parent search (ih h)
  | case10 _ _ _ _ hnil search hdot hdots hfits found ih =>
    exact .directory ⟨search, hnil, hdot, hdots, Nat.not_lt.mp hfits, found⟩ (ih h)
  | case11 _ _ _ rest hnil search hdot hdots hfits _ found hlast =>
    cases h
    rw [List.isEmpty_iff.mp hlast]
    exact .file ⟨search, hnil, hdot, hdots, Nat.not_lt.mp hfits, found⟩
  | case14 _ _ _ hnil search hdot hdots hfits _ found _ ih =>
    exact .link ⟨search, hnil, hdot, hdots, Nat.not_lt.mp hfits, found⟩ (ih h)
  | _ => simp_all

/-- With more links, and with nothing refused, steps lead to the same place. -/
theorem Leads.unrestricted (h : Leads d links here steps place) (hle : links ≤ links') :
    Leads d.unrestricted links' here steps place := by
  induction h generalizing links' with
  | arrived => exact .arrived
  | empty _ ih => exact .empty (ih hle)
  | current _ _ ih => exact .current rfl (ih hle)
  | parent _ _ ih => exact .parent rfl (ih hle)
  | directory finds _ ih => exact .directory finds.unrestricted (ih hle)
  | file finds => exact .file finds.unrestricted
  | link finds _ ih =>
    obtain ⟨more, rfl⟩ := Nat.exists_eq_add_of_le' (Nat.lt_of_succ_le hle)
    exact .link finds.unrestricted (ih (Nat.le_of_succ_le_succ hle))

/-- Behind steps that lead to a directory, further ones go on from there, with the links that are
left. -/
theorem Leads.walk_append (h : Leads d links here steps place) (mayBeNew : Bool)
    (hplace : d.node? place = some .directory) :
    ∃ left ≤ links, ∀ more, d.walk mayBeNew links here (steps ++ more) =
      d.walk mayBeNew left place more := by
  induction h with
  | arrived => exact ⟨_, Nat.le_refl _, fun _ => rfl⟩
  | empty _ ih =>
    obtain ⟨left, hle, hmore⟩ := ih hplace
    exact ⟨left, hle, fun more => walk_empty.trans (hmore more)⟩
  | current search _ ih =>
    obtain ⟨left, hle, hmore⟩ := ih hplace
    exact ⟨left, hle, fun more => (walk_current search).trans (hmore more)⟩
  | parent search _ ih =>
    obtain ⟨left, hle, hmore⟩ := ih hplace
    exact ⟨left, hle, fun more => (walk_parent search).trans (hmore more)⟩
  | directory finds _ ih =>
    obtain ⟨left, hle, hmore⟩ := ih hplace
    exact ⟨left, hle, fun more => (walk_directory finds).trans (hmore more)⟩
  | file finds =>
    rw [node?_of_look finds.found] at hplace
    cases hplace
  | link finds _ ih =>
    obtain ⟨left, hle, hmore⟩ := ih hplace
    refine ⟨left, Nat.le_succ_of_le hle, fun more => ?_⟩
    rw [List.cons_append, walk_link finds, ← List.append_assoc]
    exact hmore more

/-- An empty step at the end leads nowhere else. -/
theorem Leads.of_append_empty {steps : List Bytes} (h : Leads d links here (steps ++ [[]]) place) :
    Leads d links here steps place := by
  generalize hall : steps ++ [[]] = all at h
  induction h generalizing steps with
  | arrived => cases List.append_ne_nil_of_right_ne_nil steps (List.cons_ne_nil _ _) hall
  | empty onward ih =>
    obtain ⟨rfl, hrest⟩ | ⟨steps, rfl, hrest⟩ := List.append_eq_cons_iff.mp hall
    · obtain ⟨-, rfl⟩ := List.cons.inj hrest
      exact onward
    · exact .empty (ih hrest.symm)
  | current search _ ih =>
    obtain ⟨-, hrest⟩ | ⟨steps, rfl, hrest⟩ := List.append_eq_cons_iff.mp hall
    · cases hrest
    · exact .current search (ih hrest.symm)
  | parent search _ ih =>
    obtain ⟨-, hrest⟩ | ⟨steps, rfl, hrest⟩ := List.append_eq_cons_iff.mp hall
    · cases hrest
    · exact .parent search (ih hrest.symm)
  | directory finds _ ih =>
    obtain ⟨-, hrest⟩ | ⟨steps, rfl, hrest⟩ := List.append_eq_cons_iff.mp hall
    · exact absurd (List.cons.inj hrest).1.symm finds.ne_nil
    · exact .directory finds (ih hrest.symm)
  | file finds =>
    obtain ⟨-, hrest⟩ | ⟨steps, rfl, hrest⟩ := List.append_eq_cons_iff.mp hall
    · exact absurd (List.cons.inj hrest).1.symm finds.ne_nil
    · cases List.append_ne_nil_of_right_ne_nil steps (List.cons_ne_nil _ _) hrest.symm
  | link finds _ ih =>
    obtain ⟨-, hrest⟩ | ⟨steps, rfl, hrest⟩ := List.append_eq_cons_iff.mp hall
    · exact absurd (List.cons.inj hrest).1.symm finds.ne_nil
    · refine .link finds (ih ?_)
      rw [List.append_assoc, ← hrest]

/-! ## Paths below a directory -/

/-- The steps of a path that mean something to a walk. -/
def pieces (path : Bytes) : List Bytes := (path.splitOn slash).filter fun piece => !piece.isEmpty

theorem stepsOf_eq (path : Bytes) :
    stepsOf path = pieces path ++ if Path.endsWithSlash path then [[]] else [] := rfl

theorem pieces_append_slash (front rest : Bytes) :
    pieces (front ++ slash :: rest) = pieces front ++ pieces rest := by
  rw [pieces, List.splitOn_append_cons_self, List.filter_append, pieces, pieces]

theorem exists_front_of_endsWithSlash (h : Path.endsWithSlash path = true) :
    ∃ front, path = front ++ [slash] :=
  List.getLast?_eq_some_iff.mp (beq_iff_eq.mp h)

/-- A path behind a directory adds its steps. -/
theorem stepsOf_join (hdirectory : directory ≠ []) (hpath : path ≠ [])
    (hrelative : Path.isAbsolute path = false) :
    stepsOf (Path.join directory path) = pieces directory ++ stepsOf path := by
  have hjoin : ∃ front, Path.join directory path = front ++ slash :: path ∧
      pieces directory = pieces front := by
    rw [Path.join, hrelative]
    cases hslash : Path.endsWithSlash directory with
    | true =>
      obtain ⟨front, rfl⟩ := exists_front_of_endsWithSlash hslash
      refine ⟨front, by simp, ?_⟩
      rw [pieces_append_slash]
      exact List.append_nil _
    | false => exact ⟨directory, by simp [hdirectory], rfl⟩
  obtain ⟨front, hjoin, hpieces⟩ := hjoin
  have hlast : Path.endsWithSlash (front ++ slash :: path) = Path.endsWithSlash path := by
    rw [Path.endsWithSlash, Path.endsWithSlash, List.getLast?_append,
      List.getLast?_cons_of_ne_nil hpath]
    cases hpath' : path.getLast? with
    | none => exact absurd (List.getLast?_eq_none_iff.mp hpath') hpath
    | some last => rfl
  rw [hjoin, stepsOf_eq, stepsOf_eq, hlast, pieces_append_slash, hpieces, List.append_assoc]

theorem startOf_join (hdirectory : directory ≠ []) (hrelative : Path.isAbsolute path = false) :
    startOf here (Path.join directory path) = startOf here directory := by
  obtain ⟨first, rest, rfl⟩ := List.exists_cons_of_ne_nil hdirectory
  rw [startOf, startOf, Path.join, hrelative]
  split_ifs <;> simp_all [Path.isAbsolute]

/-- A path that leads from a place to something that is there. -/
structure Reaches (d : Disk) (here : Place) (path : Bytes) (place : Place) : Prop where
  no_nul : 0 ∉ path
  ne_nil : path ≠ []
  fits : path.length ≤ pathLimit
  leads : Leads d linkLimit (startOf here path) (stepsOf path) place

theorem reaches_iff : Reaches d here path place ↔ d.resolveFrom here path = .ok place := by
  rw [resolveFrom]
  constructor
  · intro h
    rw [if_neg (by simpa using h.no_nul), if_neg (by simpa using h.ne_nil),
      if_neg (Nat.not_lt.mpr h.fits), h.leads.walk_eq]
  · intro h
    split at h
    · cases h
    · next hnul =>
      split at h
      · cases h
      · next hnil =>
        split at h
        · cases h
        · next hfits =>
          exact ⟨by simpa using hnul, by simpa using hnil, Nat.not_lt.mp hfits, leads_of_walk h⟩

theorem suffix_join (directory path : Bytes) : path <:+ Path.join directory path := by
  rw [Path.join]
  split_ifs
  · exact List.suffix_rfl
  · exact List.suffix_append _ _
  · exact List.suffix_append _ _

/-- What a path below a directory leads to, it leads to from the place of the directory. -/
theorem Reaches.of_join (hdirectory : Reaches d here directory place)
    (hplace : d.node? place = some .directory) (hpath : path ≠ [])
    (h : Reaches d here (Path.join directory path) result) :
    Reaches d.unrestricted place path result where
  no_nul hnul := h.no_nul ((suffix_join directory path).subset hnul)
  ne_nil := hpath
  fits := Nat.le_trans (suffix_join directory path).length_le h.fits
  leads := by
    have hleads := h.leads
    cases hrelative : Path.isAbsolute path with
    | true =>
      rw [Path.join, hrelative, if_pos rfl] at hleads
      rw [startOf, if_pos hrelative] at hleads ⊢
      exact hleads.unrestricted (Nat.le_refl _)
    | false =>
      rw [startOf_join hdirectory.ne_nil hrelative,
        stepsOf_join hdirectory.ne_nil hpath hrelative] at hleads
      have hto : Leads d linkLimit (startOf here directory) (pieces directory) place := by
        have hsteps := hdirectory.leads
        rw [stepsOf_eq] at hsteps
        split at hsteps
        · exact hsteps.of_append_empty
        · rwa [List.append_nil] at hsteps
      obtain ⟨left, hle, hmore⟩ := hto.walk_append false hplace
      rw [startOf, hrelative, if_neg Bool.false_ne_true]
      refine (leads_of_walk ?_).unrestricted hle
      rw [← hmore]
      exact hleads.walk_eq

/-- What is found at a path below a directory is found from the place of the directory, too. -/
theorem statFrom_of_stat_join (hdirectory : d.resolve directory = .ok place)
    (hplace : d.node? place = some .directory) (hpath : path ≠ [])
    (h : d.stat (Path.join directory path) = .ok node) :
    d.unrestricted.statFrom place path = .ok node := by
  rw [stat, statFrom] at h
  cases hresult : d.resolveFrom d.here (Path.join directory path) with
  | error cause =>
    rw [hresult] at h
    cases h
  | ok result =>
    rw [hresult] at h
    have hreaches := Reaches.of_join (reaches_iff.mpr hdirectory) hplace hpath
      (reaches_iff.mpr hresult)
    rw [statFrom, reaches_iff.mp hreaches]
    exact h

end Disk

end TagRegistry
