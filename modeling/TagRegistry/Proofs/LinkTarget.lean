import Mathlib.Data.List.Forall2
import TagRegistry.Proofs.ArchiveRoundTrip
import TagRegistry.Proofs.NameFits

/-! The targets of links, octet by octet.

A target goes into its header field step by step. What comes out leads through the same steps, but
need not be the same text: pieces that mean nothing are gone, and the root with a slash behind it
has two. Only a target whose steps need more room than the field has stands in a record, as it is.
Targets that survive the field are the tidy ones. -/

namespace TagRegistry

open Bytes (slash dot beforeNul)

namespace Tar

open TagRegistry.Path (Component)

/-- The text that the steps of a target make up. -/
def respelled (target : Bytes) : Bytes :=
  Path.spelling (Path.components target) ++ if Path.endsWithSlash target then [slash] else []

/-- The target that a link is archived with. -/
def archivedTarget (target : Bytes) : Bytes :=
  if (respelled target).length ≤ fieldSize then respelled target else target

/-- A piece of a path that is a step. -/
def Counts (piece : Bytes) : Prop := piece ≠ [] ∧ piece ≠ [dot]

instance (piece : Bytes) : Decidable (Counts piece) := inferInstanceAs (Decidable (_ ∧ _))

/-- A target without a slash behind a slash and without a `.` behind one. It may start with a slash
or a `.`, and end with a slash, but is not the root alone. -/
structure Tidy (target : Bytes) : Prop where
  not_root : target ≠ [slash]
  between : ∀ piece ∈ (target.splitOn slash).tail.dropLast, Counts piece
  last : (target.splitOn slash).tail.getLast? ≠ some [dot]

/-! ## Pieces that are kept -/

/-- The texts of the steps that pieces make. -/
def kept (pieces : List Bytes) : List Bytes := (pieces.filterMap Path.step?).map Path.Component.text

/-- The empty piece behind a slash at the end. -/
def closing (pieces : List Bytes) : List Bytes := if pieces.getLast? = some [] then [[]] else []

theorem kept_eq_filter (pieces : List Bytes) : kept pieces = pieces.filter (Counts ·) := by
  induction pieces with
  | nil => rfl
  | cons piece pieces ih =>
    unfold kept at ih ⊢
    by_cases hcounts : Counts piece
    · have hstep : ∃ c, Path.step? piece = some c := by
        rw [Path.step?, if_neg (by simpa [Counts, not_or] using hcounts)]
        split
        · exact ⟨_, rfl⟩
        · exact ⟨_, rfl⟩
      obtain ⟨c, hc⟩ := hstep
      rw [List.filterMap_cons_some hc, List.map_cons, ih, List.filter_cons_of_pos (by simpa),
        Path.text_of_step? hc]
    · have hstep : Path.step? piece = none := by
        rw [Path.step?, if_pos]
        unfold Counts at hcounts
        rwa [not_and_or, not_not, not_not] at hcounts
      rw [List.filterMap_cons_none hstep, ih, List.filter_cons_of_neg (by simpa)]

/-- All pieces are kept if those in between are steps and the last one is a step or empty. -/
theorem kept_append_closing_iff (pieces : List Bytes) :
    kept pieces ++ closing pieces = pieces ↔
      (∀ piece ∈ pieces.dropLast, Counts piece) ∧ pieces.getLast? ≠ some [dot] := by
  rw [kept_eq_filter]
  obtain rfl | ⟨front, last, rfl⟩ := List.eq_nil_or_concat pieces
  · simp [closing]
  have hfront : front.filter (Counts ·) = front ↔ ∀ piece ∈ front, Counts piece := by
    simp [List.filter_eq_self]
  have hlength : (front.filter (Counts ·)).length ≤ front.length := List.length_filter_le _ front
  rw [List.concat_eq_append, List.filter_append, closing, List.dropLast_concat,
    List.getLast?_concat, ← hfront]
  by_cases hnil : last = []
  · subst hnil
    simp [Counts]
  by_cases hdot : last = [dot]
  · subst hdot
    have hne : front.filter (Counts ·) ≠ front ++ [[dot]] := by
      intro heq
      rw [heq, List.length_append, List.length_singleton] at hlength
      omega
    simpa [Counts] using hne
  · simp [Counts, hnil, hdot]

/-! ## Targets that survive the field -/

theorem intercalate_append_closing {words : List Bytes} (hne : words ≠ []) (pieces : List Bytes) :
    [slash].intercalate (words ++ closing pieces) =
      [slash].intercalate words ++ if pieces.getLast? = some [] then [slash] else [] := by
  rw [closing]
  split
  · exact Text.intercalate_concat hne []
  · rw [List.append_nil, List.append_nil]

/-- A path ends with a slash if its last piece is empty and not its only one. -/
theorem endsWithSlash_iff {path first : Bytes} {rest : List Bytes}
    (h : path.splitOn slash = first :: rest) :
    Path.endsWithSlash path = true ↔ rest.getLast? = some [] := by
  have hpath : [slash].intercalate (first :: rest) = path := h ▸ List.intercalate_splitOn slash
  have hslash : ∀ piece ∈ first :: rest, slash ∉ piece := by
    intro piece hmem
    rw [← h] at hmem
    exact Text.not_mem_of_mem_splitOn hmem
  -- the last octet of a piece is not a slash
  have hlast : ∀ piece ∈ first :: rest, piece.getLast? ≠ some slash := by
    intro piece hmem hlast
    exact hslash piece hmem (List.mem_of_getLast? hlast)
  rw [Path.endsWithSlash, beq_iff_eq, ← hpath]
  obtain rfl | ⟨front, last, rfl⟩ := List.eq_nil_or_concat rest
  · rw [List.intercalate_singleton]
    simpa using hlast first List.mem_cons_self
  · rw [List.concat_eq_append, List.getLast?_concat, ← List.cons_append,
      Text.intercalate_concat (List.cons_ne_nil first front)]
    by_cases hnil : last = []
    · simp [hnil]
    · have hend := hlast last (by simp)
      rw [List.getLast?_append_of_ne_nil _ (List.cons_ne_nil slash last),
        List.getLast?_cons_of_ne_nil hnil]
      simp [hend, hnil]

/-- What the steps of a target make up, piece by piece. Its first piece is always there; the root
stands before its slash. -/
theorem spelling_components_eq {target first : Bytes} {rest : List Bytes} (hne : target ≠ [])
    (h : target.splitOn slash = first :: rest) :
    Path.spelling (Path.components target) =
      (if first = [] ∧ kept rest = [] then [slash] else []) ++
        [slash].intercalate (first :: kept rest) := by
  have hjoined (cs : List Component) :
      Path.joined cs = [slash].intercalate (cs.map Component.text) := rfl
  have hkept : (rest.filterMap Path.step?).map Component.text = kept rest := rfl
  rw [Path.components, h]
  simp only []
  by_cases hnil : first = []
  · have hrest : rest ≠ [] := by
      rintro rfl
      have htarget : [slash].intercalate (target.splitOn slash) = target :=
        List.intercalate_splitOn slash
      rw [h, hnil] at htarget
      exact hne htarget.symm
    rw [if_pos hnil, if_neg hrest, Path.spelling, hjoined, hkept, hnil]
    by_cases hsteps : kept rest = []
    · simp [hsteps]
    · simp [hsteps, List.intercalate_cons_of_ne_nil]
  by_cases hdot : first = [dot]
  · rw [if_neg hnil, if_pos hdot, Path.spelling, hjoined, List.map_cons, hkept, hdot]
    · simp [Component.text]
    · intro cs heq
      cases heq
  · rw [if_neg hnil, if_neg hdot, if_neg (fun hroot => hnil hroot.1), List.nil_append]
    have hstep : ∃ c, Path.step? first = some c ∧ c ≠ .root := by
      rw [Path.step?, if_neg (by simp [hnil, hdot])]
      split
      · exact ⟨_, rfl, Component.noConfusion⟩
      · exact ⟨_, rfl, Component.noConfusion⟩
    obtain ⟨c, hc, hroot⟩ := hstep
    rw [hc, Option.toList_some, List.singleton_append, Path.spelling, hjoined, List.map_cons, hkept,
      Path.text_of_step? hc]
    exact fun cs heq => hroot (List.cons.inj heq).1

/-- What a target is respelled as, piece by piece. -/
theorem respelled_eq {target first : Bytes} {rest : List Bytes} (hne : target ≠ [])
    (h : target.splitOn slash = first :: rest) :
    respelled target =
      (if first = [] ∧ kept rest = [] then [slash] else []) ++
        [slash].intercalate (first :: kept rest ++ closing rest) := by
  rw [respelled, spelling_components_eq hne h,
    intercalate_append_closing (List.cons_ne_nil first _), List.append_assoc]
  simp only [endsWithSlash_iff h]

/-- A target of which no step is left behind its first slash. -/
theorem respelled_of_no_step {target : Bytes} {rest : List Bytes} (hne : target ≠ [])
    (h : target.splitOn slash = [] :: rest) (hkept : kept rest = []) :
    ¬ Tidy target ∧ (respelled target = target → target = [slash, slash]) := by
  have hpath : [slash].intercalate ([] :: rest) = target := h ▸ List.intercalate_splitOn slash
  have hnone : ∀ piece ∈ rest, ¬ Counts piece := by
    intro piece hmem hcounts
    rw [kept_eq_filter, List.filter_eq_nil_iff] at hkept
    exact hkept piece hmem (decide_eq_true hcounts)
  refine ⟨fun htidy => ?_, fun heq => ?_⟩
  · have hbetween := htidy.between
    have hlast := htidy.last
    rw [h, List.tail_cons] at hbetween hlast
    obtain rfl | ⟨front, last, rfl⟩ := List.eq_nil_or_concat rest
    · exact hne hpath.symm
    rw [List.concat_eq_append] at hnone hpath hbetween hlast
    rw [List.dropLast_concat] at hbetween
    rw [List.getLast?_concat] at hlast
    have hfront : front = [] := List.eq_nil_iff_forall_not_mem.mpr fun piece hmem =>
      hnone piece (List.mem_append_left _ hmem) (hbetween piece hmem)
    have hempty : last = [] := by
      have hcounts := hnone last (by simp)
      unfold Counts at hcounts
      by_contra hnil
      exact hcounts ⟨hnil, fun hdot => hlast (congrArg some hdot)⟩
    rw [hfront, hempty] at hpath
    exact htidy.not_root hpath.symm
  · rw [respelled_eq hne h, hkept, if_pos ⟨rfl, rfl⟩, closing] at heq
    split at heq
    · exact heq.symm
    · next hopen =>
      have hroot : target = [slash] := heq.symm
      rw [hroot] at h
      have hrest : [[]] = rest := (List.cons.inj h).2
      exact absurd (hrest ▸ rfl) hopen

/-- The pieces that a target is respelled from have no slash. -/
theorem slash_not_mem_pieces {target first : Bytes} {rest : List Bytes}
    (h : target.splitOn slash = first :: rest) :
    ∀ word ∈ first :: kept rest ++ closing rest, slash ∉ word := by
  have hpieces : ∀ piece ∈ first :: rest, slash ∉ piece := by
    intro piece hmem
    rw [← h] at hmem
    exact Text.not_mem_of_mem_splitOn hmem
  intro word hmem
  rw [List.cons_append, List.mem_cons, List.mem_append] at hmem
  obtain rfl | hmem | hmem := hmem
  · exact hpieces word List.mem_cons_self
  · rw [kept_eq_filter] at hmem
    exact hpieces word (List.mem_cons_of_mem first (List.mem_of_mem_filter hmem))
  · rw [closing] at hmem
    split at hmem
    · simp [List.mem_singleton.mp hmem]
    · cases hmem

/-- A target of which a step is left survives if all its pieces behind the first slash do. -/
theorem respelled_eq_self_iff_pieces {target first : Bytes} {rest : List Bytes} (hne : target ≠ [])
    (h : target.splitOn slash = first :: rest) (hstep : ¬ (first = [] ∧ kept rest = [])) :
    respelled target = target ↔ kept rest ++ closing rest = rest := by
  rw [respelled_eq hne h, if_neg hstep, List.nil_append]
  constructor
  · intro heq
    have hsplit := congrArg (List.splitOn slash) heq
    rw [List.splitOn_intercalate slash (slash_not_mem_pieces h) (by simp), h] at hsplit
    exact (List.cons.inj hsplit).2
  · intro heq
    rw [List.cons_append, heq]
    exact h ▸ List.intercalate_splitOn slash

/-- Tidy targets and `//` survive, and no others. -/
theorem respelled_eq_self_iff (target : Bytes) :
    respelled target = target ↔ Tidy target ∨ target = [slash, slash] := by
  by_cases hne : target = []
  · subst hne
    exact ⟨fun _ => .inl ⟨by decide, by decide, by decide⟩, fun _ => rfl⟩
  obtain ⟨first, rest, h⟩ := List.exists_cons_of_ne_nil (List.splitOn_ne_nil slash target)
  by_cases hroot : first = [] ∧ kept rest = []
  · obtain ⟨rfl, hkept⟩ := hroot
    obtain ⟨huntidy, hslashes⟩ := respelled_of_no_step hne h hkept
    refine ⟨fun heq => .inr (hslashes heq), ?_⟩
    rintro (htidy | rfl)
    · exact absurd htidy huntidy
    · decide
  · have hne_slashes : target ≠ [slash] ∧ target ≠ [slash, slash] := by
      constructor
      · rintro rfl
        obtain ⟨rfl, rfl⟩ := List.cons.inj h
        exact hroot ⟨rfl, rfl⟩
      · rintro rfl
        obtain ⟨rfl, rfl⟩ := List.cons.inj h
        exact hroot ⟨rfl, rfl⟩
    rw [respelled_eq_self_iff_pieces hne h hroot, kept_append_closing_iff]
    constructor
    · rintro ⟨hbetween, hlast⟩
      exact .inl ⟨hne_slashes.1, by rwa [h], by rwa [h]⟩
    · rintro (htidy | hslashes)
      · have hbetween := htidy.between
        have hlast := htidy.last
        rw [h] at hbetween hlast
        exact ⟨hbetween, hlast⟩
      · exact absurd hslashes hne_slashes.2

theorem archivedTarget_eq_self_iff (target : Bytes) : archivedTarget target = target ↔
    fieldSize < (respelled target).length ∨ Tidy target ∨ target = [slash, slash] := by
  rw [archivedTarget, ← respelled_eq_self_iff]
  split
  · next hshort => simp [Nat.not_lt.mpr hshort]
  · next hlong => simp [Nat.lt_of_not_le hlong]

/-- A target that is recorded is read as what its steps make up, or from its record. -/
theorem readBack_recordLink {nameField target : Bytes} {r : Recorded} (hnul : 0 ∉ target)
    (hr : recordLink nameField target = .ok r) :
    Archive.readBack r target = archivedTarget target := by
  have hne : target ≠ [] := by
    rintro rfl
    cases hr
  have hspelled : spelled (linkPieces target) = respelled target :=
    spelled_linkPieces (Path.components_ne_nil hne)
  have hfits := fitsField_iff (linkPieces target) (rfl : Field.blank.used = 0)
  rw [fitsField_linkPieces_iff hne hnul, hspelled] at hfits
  unfold recordLink at hr
  rw [archivedTarget]
  split at hr
  · next f hfill =>
    cases hr
    rw [hfill] at hfits
    rw [Field.blank_eq] at hfill
    obtain ⟨rfl, hlength, hspellednul, -⟩ := Field.fill_written (Nat.zero_le _) hfill
    rw [List.nil_append, hspelled] at hlength
    rw [hspelled] at hspellednul
    rw [List.nil_append, hspelled, if_pos (hfits.mp rfl), Archive.readBack,
      if_neg Bool.false_ne_true, Field.written, fit_fit, beforeNul_fit hlength,
      beforeNul_of_not_mem hspellednul]
  · next f fault hfill =>
    rw [hfill] at hfits
    split at hr
    · cases hr
    · cases hr
      have hlong : ¬(respelled target).length ≤ fieldSize := by
        intro h
        cases hfits.mpr h
      rw [if_neg hlong, Archive.readBack, if_pos rfl, beforeNul_of_not_mem hnul]

end Tar

namespace Archive

open Tar

/-- A member that shows a link with its own target, if it is long or tidy, and else with what the
steps of the target make up. -/
def ShowsTarget (item : Item) (m : Member) : Prop :=
  ∀ target, item.entity = .symlink target → 0 ∉ target →
    m.kind = .symlink ∧ m.target = archivedTarget target ∧
      (m.target = target ↔
        fieldSize < (respelled target).length ∨ Tidy target ∨ target = [slash, slash])

theorem WrittenAs.showsTarget {mtime : Nat} {item : Item} {m : Member}
    (h : WrittenAs mtime item m) : ShowsTarget item m := by
  intro target htarget hnul
  have hentity := h.entity
  rw [htarget] at hentity
  obtain ⟨hkind, ⟨name, -, -, link, hlink, hread⟩, -⟩ := hentity
  have harchived : m.target = archivedTarget target :=
    hread.trans (readBack_recordLink hnul hlink)
  exact ⟨hkind, harchived, by rw [harchived, archivedTarget_eq_self_iff]⟩

theorem exists_peel_of_write {σ : Type} [Sink σ] {s : ObjectStore} {v : Version} {out out' : σ}
    (hwrite : write s v out = (.ok (), out')) : ∃ commit, s.peel v.tagRef = .ok commit := by
  cases hpeel : s.peel v.tagRef with
  | ok commit => exact ⟨commit, rfl⟩
  | error cause =>
    rw [write, Catalog.resolveCommit, hpeel] at hwrite
    cases hwrite

/-- The links of a finished archive. Each is read with the target that its blob holds, octet by
octet, if and only if the target is tidy or its steps need more room than the header field has. -/
theorem link_targets {σ : Type} [Sink σ] (all : TakesAll σ) {s : ObjectStore} {v : Version}
    {out out' : σ} (hready : all.ready out)
    (hsize : ∀ commit items, s.peel v.tagRef = .ok commit → SnapshotOf s commit.tree.oid items →
      ∀ item ∈ items, item.Addressable)
    (hwrite : write s v out = (.ok (), out')) :
    ∃ commit items octets members, s.peel v.tagRef = .ok commit ∧
      SnapshotOf s commit.tree.oid items ∧ all.taken out' = all.taken out ++ octets ∧
      Tar.read? octets = some members ∧ List.Forall₂ ShowsTarget items members := by
  obtain ⟨commit, htag⟩ := exists_peel_of_write hwrite
  obtain ⟨items, octets, members, hsnapshot, htaken, hread, hwritten⟩ :=
    written_write all hready htag (fun items => hsize commit items htag) hwrite
  exact ⟨commit, items, octets, members, htag, hsnapshot, htaken, hread,
    hwritten.imp fun _ _ => WrittenAs.showsTarget⟩

theorem link_targets_toolStore :
    ∃ (out : Collected) (octets : Bytes) (members : List Member),
      write toolStore.view (.release 1 0 0) .unlimited = (.ok (), out) ∧ out.toList = octets ∧
      Tar.read? octets = some members ∧
      List.Forall₂ ShowsTarget [⟨Bytes.ascii "bin", .directory⟩,
        ⟨Bytes.ascii "bin/run", .file 0o100755 (Bytes.ascii "exit 0")⟩,
        ⟨Bytes.ascii "latest", .symlink (Bytes.ascii "bin//run")⟩] members := by
  obtain ⟨out, hwrite⟩ := write_toolStore
  have hready : Collected.takesAll.ready .unlimited := rfl
  have htag : toolStore.view.peel (Version.release 1 0 0).tagRef = .ok ⟨⟨.ofNat 1⟩, -5⟩ := rfl
  obtain ⟨commit, items, octets, members, hpeel, hitems, htaken, hread, hshown⟩ :=
    link_targets Collected.takesAll hready (fun commit items hpeel hitems => by
      cases htag.symm.trans hpeel
      exact addressable_toolStore hitems) hwrite
  cases htag.symm.trans hpeel
  rw [hitems.unique snapshotOf_toolStore] at hshown
  exact ⟨out, octets, members, hwrite, htaken, hread, hshown⟩

/-- The link `latest` leads to `bin//run`. Its blob holds no NUL, the archive is finished, and the
target in it has one slash. -/
theorem double_slash_lost :
    ∃ (out : Collected) (octets : Bytes) (bin run latest : Member),
      SnapshotOf toolStore.view (.ofNat 1) [⟨Bytes.ascii "bin", .directory⟩,
        ⟨Bytes.ascii "bin/run", .file 0o100755 (Bytes.ascii "exit 0")⟩,
        ⟨Bytes.ascii "latest", .symlink (Bytes.ascii "bin//run")⟩] ∧
      write toolStore.view (.release 1 0 0) .unlimited = (.ok (), out) ∧ out.toList = octets ∧
      Tar.read? octets = some [bin, run, latest] ∧ 0 ∉ Bytes.ascii "bin//run" ∧
      latest.target = Bytes.ascii "bin/run" ∧ latest.target ≠ Bytes.ascii "bin//run" := by
  obtain ⟨out, hwrite⟩ := write_toolStore
  have hready : Collected.takesAll.ready .unlimited := rfl
  have htag : toolStore.view.peel (Version.release 1 0 0).tagRef = .ok ⟨⟨.ofNat 1⟩, -5⟩ := rfl
  obtain ⟨items, octets, members, hitems, htaken, hread, hwritten⟩ :=
    written_write Collected.takesAll hready htag (fun _ => addressable_toolStore) hwrite
  rw [hitems.unique snapshotOf_toolStore] at hwritten
  obtain _ | ⟨-, _ | ⟨-, _ | ⟨hlatest, _ | _⟩⟩⟩ := hwritten
  obtain ⟨-, htarget, -⟩ := hlatest.showsTarget _ rfl (by decide)
  have hbin : archivedTarget (Bytes.ascii "bin//run") = Bytes.ascii "bin/run" := by
    decide +kernel
  rw [hbin] at htarget
  exact ⟨out, octets, _, _, _, snapshotOf_toolStore, hwrite, htaken, hread, by decide, htarget,
    htarget ▸ by decide⟩

end Archive

end TagRegistry
