import TagRegistry.Proofs.ArchiveRoundTrip
import TagRegistry.Proofs.NameFits
import TagRegistry.Proofs.Nesting

/-! Which ordinary snapshots have an archive.

Directories and links never stand in the way. A file or link with a path longer than the name field
does if no front part of the path is valid text: then nothing of the path may go into the field. -/

namespace TagRegistry

open Tar

/-- An item with a path that a header can be made for. -/
def Item.Nameable (item : Item) : Prop :=
  item.entity = .directory ∨ item.path.length ≤ fieldSize ∨ cutName item.path ≠ []

instance (item : Item) : Decidable item.Nameable := by
  unfold Item.Nameable
  infer_instance

/-- No link that can be reached is empty. -/
def NoEmptyLinks (s : ObjectStore) (root : ObjectId) : Prop :=
  ∀ {tree : ObjectId} {entries : List TreeEntry} {entry : TreeEntry}, Reachable s root tree →
    s.readTree tree = .ok entries → entry ∈ entries → entry.kind = .symlink →
      s.readBlob entry.oid ≠ .ok []

theorem Unfolds.links {s : ObjectStore} {root : ObjectId} {above : Bytes}
    {entries : List TreeEntry} {items : List Item} (h : Unfolds s above entries items)
    (hlinks : NoEmptyLinks s root) {tree : ObjectId} {all : List TreeEntry}
    (hreach : Reachable s root tree) (hread : s.readTree tree = .ok all) (hall : entries ⊆ all) :
    ∀ item ∈ items, item.entity ≠ .symlink [] := by
  induction h generalizing tree all with
  | nil => intro item hmem; cases hmem
  | directory kind inside _ _ ihd ihn =>
    obtain ⟨hentry, hrest⟩ := List.cons_subset.mp hall
    intro item hmem
    rcases List.mem_cons.mp hmem with rfl | hmem
    · exact nofun
    · rcases List.mem_append.mp hmem with hmem | hmem
      · exact ihd (hreach.step hread hentry kind) inside (List.Subset.refl _) item hmem
      · exact ihn hreach hread hrest item hmem
  | file kind blob _ ihn =>
    obtain ⟨hentry, hrest⟩ := List.cons_subset.mp hall
    intro item hmem
    rcases List.mem_cons.mp hmem with rfl | hmem
    · exact nofun
    · exact ihn hreach hread hrest item hmem
  | symlink kind blob _ ihn =>
    obtain ⟨hentry, hrest⟩ := List.cons_subset.mp hall
    intro item hmem
    rcases List.mem_cons.mp hmem with rfl | hmem
    · rintro ⟨⟩
      exact hlinks hreach hread hentry kind blob
    · exact ihn hreach hread hrest item hmem
  | submodule _ _ ihn =>
    intro item hmem
    exact ihn hreach hread (List.cons_subset.mp hall).2 item hmem

theorem SnapshotOf.links {s : ObjectStore} {root : ObjectId} {items : List Item}
    (h : SnapshotOf s root items) (hlinks : NoEmptyLinks s root) :
    ∀ item ∈ items, item.entity ≠ .symlink [] := by
  obtain ⟨entries, hread, hunfolds⟩ := h
  exact hunfolds.links hlinks .root hread (List.Subset.refl _)

namespace Archive

/-! ## One item -/

theorem outcome_named (path : Bytes) (f : Recorded → Trace Bytes ArchiveError)
    (answer : Except NameError Recorded) (hf : ∀ r, answer = .ok r → (f r).outcome = .ok ()) :
    (named path f answer).outcome = .ok () ↔ ∃ r, answer = .ok r := by
  cases answer with
  | ok r => exact iff_of_true (hf r rfl) ⟨r, rfl⟩
  | error cause => exact iff_of_false nofun fun ⟨r, hr⟩ => nomatch hr

/-- An item of an ordinary snapshot is written exactly if it is nameable. -/
theorem outcome_itemTrace_iff {mtime : Nat} {item : Item} (hlegal : item.Legal)
    (hlink : item.entity ≠ .symlink []) :
    (itemTrace mtime item).outcome = .ok () ↔ item.Nameable := by
  obtain ⟨path, entity⟩ := item
  have hname := exists_recordName_iff hlegal.path
  unfold itemTrace Item.Nameable
  cases entity with
  | directory =>
    simp only [true_or, iff_true]
    exact Trace.andThen_ok_iff.mpr ⟨longTrace_ok _ _ _ _, rfl⟩
  | file mode content =>
    simp only [reduceCtorEq, false_or]
    rw [outcome_named _ _ _ fun r _ => Trace.andThen_ok_iff.mpr ⟨longTrace_ok _ _ _ _, rfl⟩, hname]
  | symlink target =>
    simp only [reduceCtorEq, false_or]
    rw [outcome_named _ _ _ fun r _ => ?_, hname]
    refine Trace.andThen_ok_iff.mpr ⟨longTrace_ok _ _ _ _, ?_⟩
    rw [outcome_named _ _ _ fun r _ => Trace.andThen_ok_iff.mpr ⟨longTrace_ok _ _ _ _, rfl⟩]
    exact exists_recordLink _ (fun h => hlink (h ▸ rfl)) (hlegal.target rfl)

/-- An item that is not nameable is refused for want of a component. -/
theorem itemTrace_of_not_nameable {mtime : Nat} {item : Item} (hlegal : item.Legal)
    (h : ¬item.Nameable) :
    ∃ shown, (itemTrace mtime item).outcome =
      .error (.unarchivable item.path (.name ⟨.path, .noComponent, shown⟩)) := by
  obtain ⟨path, entity⟩ := item
  simp only [Item.Nameable, not_or, not_not] at h
  obtain ⟨hentity, hlong, hcut⟩ := h
  have hunfit : ¬FitsField (namePieces false path) := mt (fitsField_of_legal hlegal.path).mp hlong
  obtain ⟨shown, hname⟩ := recordName_of_cutName_nil hunfit (by omega) hcut
  unfold itemTrace
  cases entity with
  | directory => exact absurd rfl hentity
  | file mode content => exact ⟨shown, by simp only [hname]; rfl⟩
  | symlink target => exact ⟨shown, by simp only [hname]; rfl⟩

/-! ## Snapshots -/

variable {σ : Type} [Sink σ]

/-- An ordinary snapshot in which no link is empty is archived exactly if all of it can be read, no
tree contains itself and all its items are nameable. The first item that is not is refused. -/
theorem write_ordinary (all : TakesAll σ) {s : ObjectStore} {v : Version} {commit : Snapshot}
    {out : σ} (hready : all.ready out) (htag : s.peel v.tagRef = .ok commit)
    (hordinary : Ordinary s commit.tree.oid) (hlinks : NoEmptyLinks s commit.tree.oid) :
    ((write s v out).1 = .ok () ↔ Intact s commit.tree.oid ∧ Acyclic s commit.tree.oid ∧
        ∀ items, SnapshotOf s commit.tree.oid items → ∀ item ∈ items, item.Nameable) ∧
      ∀ before item after, SnapshotOf s commit.tree.oid (before ++ item :: after) →
        (∀ i ∈ before, i.Nameable) → ¬item.Nameable → ∃ shown,
          (write s v out).1 = .error (.unarchivable item.path (.name ⟨.path, .noComponent, shown⟩)) := by
  have hok {items : List Item} (h : SnapshotOf s commit.tree.oid items) : ∀ item ∈ items,
      ((itemTrace (memberTime commit) item).outcome = .ok () ↔ item.Nameable) := fun item hmem =>
    outcome_itemTrace_iff (h.legal hordinary item hmem) (h.links hlinks item hmem)
  have hwritten {items : List Item} (h : SnapshotOf s commit.tree.oid items) :
      (write s v out).1 = .ok () ↔ ∀ item ∈ items, item.Nameable := by
    rw [write_items all hready htag h, outcome_itemsTrace_iff]
    exact forall₂_congr (hok h)
  refine ⟨⟨fun hwrite => ?_, ?_⟩, ?_⟩
  · obtain ⟨hread, hroot⟩ := exists_snapshotOf_iff.mp
      (exists_snapshotOf_of_write all hready htag hwrite)
    exact ⟨hread, hroot, fun items h => (hwritten h).mp hwrite⟩
  · rintro ⟨hread, hroot, hnameable⟩
    obtain ⟨items, h⟩ := exists_snapshotOf_iff.mpr ⟨hread, hroot⟩
    exact (hwritten h).mpr (hnameable items h)
  · intro before item after h hbefore hitem
    have hmem : item ∈ before ++ item :: after := by simp
    obtain ⟨shown, hrefused⟩ := itemTrace_of_not_nameable (h.legal hordinary item hmem) hitem
    refine ⟨shown, ?_⟩
    rw [write_items all hready htag h]
    exact outcome_itemsTrace before
      (fun i hi => (hok h i (List.mem_append_left _ hi)).mpr (hbefore i hi)) hrefused

/-- An ordinary snapshot without a long file or link is archived, for example. -/
theorem write_ordinary_toolStore :
    (write toolStore.view (.release 1 0 0) Collected.unlimited).1 = .ok () := by
  have hlinks : NoEmptyLinks toolStore.view (.ofNat 1) := by
    intro tree entries entry hreach hread hmem hkind hblob
    obtain rfl | rfl := readTree_toolStore hreach hread
    · simp only [List.mem_cons, List.not_mem_nil, or_false] at hmem
      obtain rfl | rfl | rfl := hmem
      · cases hkind
      · have hempty : [] = Bytes.ascii "bin//run" := Except.ok.inj (hblob.symm.trans rfl)
        exact absurd hempty (by decide)
      · cases hkind
    · rw [List.mem_singleton.mp hmem] at hkind
      cases hkind
  have hready : Collected.takesAll.ready .unlimited := rfl
  have htag : toolStore.view.peel (Version.release 1 0 0).tagRef = .ok ⟨⟨.ofNat 1⟩, -5⟩ := rfl
  refine (write_ordinary Collected.takesAll hready htag ordinary_toolStore hlinks).1.mpr
    ⟨snapshotOf_toolStore.intact, snapshotOf_toolStore.acyclic, fun items h => ?_⟩
  rw [h.unique snapshotOf_toolStore]
  decide

/-! ## A name that is not text -/

/-- `é` in Latin-1 and a hundred letters. -/
def latinName : Bytes := 0xE9 :: List.replicate 100 97

/-- A file with a long name that does not begin as UTF-8. -/
def latinStore : MemoryStore where
  refs := [("refs/tags/v1.0.0", ⟨⟨.ofNat 2⟩, 100⟩)]
  trees := [(.ofNat 2, [⟨latinName, .ofNat 1, .file, 0o100644⟩])]
  blobs := [(.ofNat 1, Bytes.ascii "x")]
  refused := []
  listingRefused := false
  count := 2

theorem snapshotOf_latinStore : SnapshotOf latinStore.view (.ofNat 2)
    [⟨latinName, .file 0o100644 (Bytes.ascii "x")⟩] :=
  snapshotOf_walk (rfl : (walk latinStore.view 1 (.ofNat 2) []).outcome = .ok ())

theorem readTree_latinStore {tree : ObjectId} {entries : List TreeEntry}
    (hreach : Reachable latinStore.view (.ofNat 2) tree)
    (hread : latinStore.view.readTree tree = .ok entries) :
    entries = [⟨latinName, .ofNat 1, .file, 0o100644⟩] := by
  induction hreach generalizing entries with
  | root => exact Except.ok.inj (hread.symm.trans rfl)
  | step _ read mem kind ih =>
    rw [ih read, List.mem_singleton] at mem
    rw [mem] at kind
    cases kind

theorem legalName_latinName : Path.LegalName latinName :=
  ⟨by decide, by decide, by decide, by decide, by decide⟩

/-- The snapshot is ordinary and can be read, but its only file is refused. -/
theorem latinName_refused :
    Ordinary latinStore.view (.ofNat 2) ∧ NoEmptyLinks latinStore.view (.ofNat 2) ∧
      Intact latinStore.view (.ofNat 2) ∧ Acyclic latinStore.view (.ofNat 2) ∧
      latinStore.view.peel (Version.release 1 0 0).tagRef = .ok ⟨⟨.ofNat 2⟩, 100⟩ ∧
      ∃ shown, (write latinStore.view (.release 1 0 0) Collected.unlimited).1 =
        .error (.unarchivable latinName (.name ⟨.path, .noComponent, shown⟩)) := by
  have hlegal : Item.Legal ⟨latinName, .file 0o100644 (Bytes.ascii "x")⟩ := by
    refine ⟨fun piece hmem => ?_, nofun⟩
    rw [List.splitOn_eq_singleton legalName_latinName.no_slash, List.mem_singleton] at hmem
    rw [hmem]
    exact legalName_latinName
  have htag : latinStore.view.peel (Version.release 1 0 0).tagRef = .ok ⟨⟨.ofNat 2⟩, 100⟩ := rfl
  obtain ⟨shown, hrefused⟩ := itemTrace_of_not_nameable hlegal (by decide +kernel)
  refine ⟨⟨?_, ?_⟩, ?_, snapshotOf_latinStore.intact, snapshotOf_latinStore.acyclic, htag,
    shown, ?_⟩
  · intro tree entries entry hreach hread hmem
    rw [readTree_latinStore hreach hread, List.mem_singleton] at hmem
    rw [hmem]
    exact legalName_latinName
  · intro tree entries entry target hreach hread hmem hkind
    rw [readTree_latinStore hreach hread, List.mem_singleton] at hmem
    rw [hmem] at hkind
    cases hkind
  · intro tree entries entry hreach hread hmem hkind
    rw [readTree_latinStore hreach hread, List.mem_singleton] at hmem
    rw [hmem] at hkind
    cases hkind
  · have hready : Collected.takesAll.ready .unlimited := rfl
    rw [write_items Collected.takesAll hready htag snapshotOf_latinStore]
    exact outcome_itemsTrace [] nofun hrefused

end Archive

end TagRegistry
