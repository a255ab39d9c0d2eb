import TagRegistry.Proofs.ArchiveRoundTrip
import TagRegistry.Proofs.CompressedArchive
import TagRegistry.Proofs.DownloadIntegrity

/-! Moving a tag while its archive is asked for.

The check of a download and the writing of the archive look the tag up one after the other. What
is written is the archive of the tree that the tag leads to at the second time, whatever tree was
asked for and checked. -/

namespace TagRegistry

/-! ## Stores with the same objects -/

/-- Two stores hold the same objects. Their references may differ. -/
structure SameObjects (s₁ s₂ : ObjectStore) : Prop where
  trees : s₁.readTree = s₂.readTree
  blobs : s₁.readBlob = s₂.readBlob
  ids : s₁.treeIds = s₂.treeIds

/-- A store in which every reference leads to one commit. -/
def ObjectStore.pinned (s : ObjectStore) (commit : Snapshot) : ObjectStore :=
  { s with peel := fun _ => .ok commit }

theorem sameObjects_pinned (s : ObjectStore) (commit : Snapshot) :
    SameObjects (s.pinned commit) s := ⟨rfl, rfl, rfl⟩

section Congruence

variable {s₁ s₂ : ObjectStore}

theorem walk_congr (h : SameObjects s₁ s₂) (depth : Nat) (tree : ObjectId) (above : Bytes) :
    walk s₁ depth tree above = walk s₂ depth tree above := by
  induction depth generalizing tree above with
  | zero => rfl
  | succ depth ih =>
    have hbelow : walk s₁ depth = walk s₂ depth := funext fun t => funext fun a => ih t a
    have hentry : walkEntry s₁ = walkEntry s₂ := by
      unfold walkEntry
      rw [h.blobs]
    rw [walk, walk, h.trees, hbelow, hentry]

namespace Archive

variable {σ : Type} [Sink σ]

theorem writeSnapshot_congr (h : SameObjects s₁ s₂) (commit : Snapshot) (out : σ) :
    writeSnapshot s₁ commit out = writeSnapshot s₂ commit out := by
  have hdepth : depthFor s₁ out = depthFor s₂ out := by
    rw [depthFor, depthFor, h.ids]
  rw [writeSnapshot_eq_feed, writeSnapshot_eq_feed, snapshotTrace, snapshotTrace, treeTrace,
    treeTrace, walk_congr h, hdepth]

/-- What is written for a version is the archive of the commit that its tag leads to. -/
theorem write_pinned (h : SameObjects s₁ s₂) {v : Version} {commit : Snapshot}
    (hpeel : s₂.peel v.tagRef = .ok commit) (out : σ) :
    write s₂ v out = write (s₁.pinned commit) v out := by
  have hpinned : (s₁.pinned commit).peel v.tagRef = .ok commit := rfl
  rw [write_eq_writeSnapshot hpeel, write_eq_writeSnapshot hpinned,
    writeSnapshot_congr (sameObjects_pinned s₁ commit), writeSnapshot_congr h]

theorem writeCompressed_pinned (h : SameObjects s₁ s₂) {v : Version} {commit : Snapshot}
    (hpeel : s₂.peel v.tagRef = .ok commit) (out : σ) :
    writeCompressed s₂ v out = writeCompressed (s₁.pinned commit) v out := by
  rw [writeCompressed, writeCompressed, write_pinned h hpeel]

end Archive

end Congruence

/-! ## Snapshots that an archive does not tell apart -/

/-- Two items that are the same but for what an archive does not show. -/
def Alike (a b : Item) : Prop :=
  a.path = b.path ∧
    match a.entity, b.entity with
    | .directory, .directory => True
    | .file mode content, .file mode' content' => mode &&& 0o7777 = mode' &&& 0o7777 ∧
        content = content'
    | .symlink target, .symlink target' => Path.components target = Path.components target'
    | _, _ => False

theorem Alike.symm {a b : Item} (h : Alike a b) : Alike b a := by
  obtain ⟨path, entity⟩ := a
  obtain ⟨path', entity'⟩ := b
  obtain ⟨hpath, hentity⟩ := h
  refine ⟨hpath.symm, ?_⟩
  cases entity <;> cases entity' <;> simp only [] at hentity ⊢
  case file.file => exact ⟨hentity.1.symm, hentity.2.symm⟩
  case symlink.symlink => exact hentity.symm

/-- A member that shows an item shows just the items that are like it. -/
theorem Shows.iff_alike {commit : Snapshot} {a b : Item} {m : Tar.Member} (h : Shows commit a m) :
    Shows commit b m ↔ Alike a b := by
  obtain ⟨path, entity⟩ := a
  obtain ⟨path', entity'⟩ := b
  obtain ⟨htime, hnobody, hentity⟩ := h
  constructor
  · rintro ⟨-, -, hentity'⟩
    cases entity <;> cases entity' <;> simp only [Alike] at hentity hentity' ⊢
    case directory.directory =>
      exact ⟨List.append_cancel_right (hentity.2.1.symm.trans hentity'.2.1), trivial⟩
    case file.file =>
      obtain ⟨-, hpath, hmode, hcontent⟩ := hentity
      obtain ⟨-, hpath', hmode', hcontent'⟩ := hentity'
      exact ⟨hpath.symm.trans hpath', UInt32.toNat_inj.mp (hmode.symm.trans hmode'),
        hcontent.symm.trans hcontent'⟩
    case symlink.symlink =>
      obtain ⟨-, hpath, htarget, -⟩ := hentity
      obtain ⟨-, hpath', htarget', -⟩ := hentity'
      exact ⟨hpath.symm.trans hpath', htarget.symm.trans htarget'⟩
    all_goals cases hentity.1.symm.trans hentity'.1
  · rintro ⟨hpath, halike⟩
    refine ⟨htime, hnobody, ?_⟩
    cases entity <;> cases entity' <;> simp only [] at hpath halike hentity ⊢
    case directory.directory => rwa [← hpath]
    case file.file =>
      obtain ⟨hmode, hcontent⟩ := halike
      rwa [← hpath, ← hmode, ← hcontent]
    case symlink.symlink => rwa [← hpath, ← halike]

/-- Archives of two snapshots, item by item. -/
def AlikeSnapshots (s : ObjectStore) (tree tree' : TreeId) : Prop :=
  ∃ items items', SnapshotOf s tree.oid items ∧ SnapshotOf s tree'.oid items' ∧
    List.Forall₂ Alike items items'

/-- Octets that are read as the snapshot of a tree, with the time of a commit. -/
def ReadsAsSnapshot (s : ObjectStore) (tree : TreeId) (commit : Snapshot) (octets : Bytes) :
    Prop :=
  ∃ items members, SnapshotOf s tree.oid items ∧ Tar.read? octets = some members ∧
    List.Forall₂ (Shows commit) items members

theorem readsAsSnapshot_iff_alike {s : ObjectStore} {tree : TreeId} {commit : Snapshot}
    {octets : Bytes} (h : ReadsAsSnapshot s commit.tree commit octets) :
    ReadsAsSnapshot s tree commit octets ↔ AlikeSnapshots s tree commit.tree := by
  obtain ⟨items, members, hitems, hread, hshows⟩ := h
  constructor
  · rintro ⟨items', members', hitems', hread', hshows'⟩
    cases hread.symm.trans hread'
    refine ⟨items', items, hitems', hitems, ?_⟩
    clear hitems hitems' hread hread'
    induction hshows generalizing items' with
    | nil =>
      cases hshows'
      exact .nil
    | cons hshow _ ih =>
      cases hshows' with
      | cons hshow' hrest => exact .cons (hshow'.iff_alike.mp hshow) (ih _ hrest)
  · rintro ⟨items', items'', hitems', hitems'', halike⟩
    cases hitems.unique hitems''
    refine ⟨items', members, hitems', hread, ?_⟩
    clear hitems hitems' hread hitems''
    induction halike generalizing members with
    | nil =>
      cases hshows
      exact .nil
    | cons hlike _ ih =>
      cases hshows with
      | cons hshow hrest => exact .cons (hshow.iff_alike.mpr hlike.symm) (ih _ hrest)

/-! ## What a client gets for a tree that was checked -/

theorem exists_peel_of_writeCompressed {s : ObjectStore} {v : Version} {σ : Type} [Sink σ]
    {out out' : σ} (h : Archive.writeCompressed s v out = (.ok (), out')) :
    ∃ commit, s.peel v.tagRef = .ok commit := by
  cases hpeel : s.peel v.tagRef with
  | ok commit => exact ⟨commit, rfl⟩
  | error cause =>
    rw [Archive.writeCompressed, Archive.write, Catalog.resolveCommit, hpeel] at h
    cases h

theorem sendArchive_pinned {s₁ s₂ : ObjectStore} (h : SameObjects s₁ s₂) {v : Version}
    {commit : Snapshot} (hpeel : s₂.peel v.tagRef = .ok commit) (m : ServedModule) (ch : Channel) :
    m.sendArchive s₂ v ch = m.sendArchive (s₁.pinned commit) v ch := by
  rw [ServedModule.sendArchive, ServedModule.sendArchive, Archive.writeCompressed_pinned h hpeel]

/-- An archive of an ordinary snapshot is read as this snapshot. -/
theorem readsAsSnapshot_of_write {s₁ s₂ : ObjectStore} (h : SameObjects s₁ s₂) {v : Version}
    {commit : Snapshot} {archive : Collected} (hpeel : s₂.peel v.tagRef = .ok commit)
    (hordinary : Ordinary s₁ commit.tree.oid)
    (hsize : ∀ items, SnapshotOf s₁ commit.tree.oid items → ∀ item ∈ items, item.Addressable)
    (hwrite : Archive.write s₂ v Collected.unlimited = (.ok (), archive)) :
    ReadsAsSnapshot s₁ commit.tree commit archive.toList := by
  rw [Archive.write_eq_writeSnapshot hpeel, ← Archive.writeSnapshot_congr h,
    Archive.writeSnapshot_eq_feed] at hwrite
  have hready : Collected.takesAll.ready .unlimited := rfl
  obtain ⟨last, hfeed, -, htaken⟩ := Archive.feed_takesAll Collected.takesAll
    (Archive.snapshotTrace s₁ (Archive.depthFor s₁ Collected.unlimited) commit) hready
  rw [hfeed] at hwrite
  obtain ⟨hok, rfl⟩ := Prod.mk.inj hwrite
  obtain ⟨items, members, hitems, hwritten, hread⟩ := Archive.written_snapshotTrace hsize hok
  have hoctets : last.toList = Archive.octetsOf
      (Archive.snapshotTrace s₁ (Archive.depthFor s₁ Collected.unlimited) commit) := htaken
  rw [← hoctets] at hread
  exact ⟨items, members, hitems, hread,
    Archive.shows_of_written hwritten (hitems.legal hordinary)⟩

/-- What is sent for a tree that was checked in `s₁` is the archive of the commit that the tag
leads to in `s₂`, when it is written. It is that of the tree unless the tag was moved to another
one, and it is read as the snapshot of the tree exactly if the two snapshots are alike. -/
theorem served_archive {s₁ s₂ : ObjectStore} {m : ServedModule} {v : Version} {supplied : String}
    (hobjects : SameObjects s₁ s₂) (hcheck : (m.checkTree s₁ v supplied).outcome.1 = .ok ())
    {σ : Type} [Sink σ] {out out' : σ}
    (hwrite : Archive.writeCompressed s₂ v out = (.ok (), out')) :
    ∃ (tree : TreeId) (commit : Snapshot), HasTree s₁ v tree ∧ supplied ∈ tree.spellings ∧
      s₂.peel v.tagRef = .ok commit ∧
      Archive.writeCompressed (s₁.pinned commit) v out = (.ok (), out') ∧
      (∀ ch, m.sendArchive s₂ v ch = m.sendArchive (s₁.pinned commit) v ch) ∧
      (commit.tree = tree →
        Archive.writeCompressed (s₁.pinned ⟨tree, commit.committedAt⟩) v out = (.ok (), out') ∧
        ∀ ch, m.sendArchive s₂ v ch =
          m.sendArchive (s₁.pinned ⟨tree, commit.committedAt⟩) v ch) ∧
      (Ordinary s₁ commit.tree.oid →
        (∀ items, SnapshotOf s₁ commit.tree.oid items → ∀ item ∈ items, item.Addressable) →
        ∀ archive, Archive.write s₂ v Collected.unlimited = (.ok (), archive) →
          (ReadsAsSnapshot s₁ tree commit archive.toList ↔
            AlikeSnapshots s₁ tree commit.tree)) := by
  obtain ⟨tree, htree, hx⟩ := m.checkTree_ok_iff.mp hcheck
  obtain ⟨commit, hpeel⟩ := exists_peel_of_writeCompressed hwrite
  have hpinned : Archive.writeCompressed (s₁.pinned commit) v out = (.ok (), out') :=
    (Archive.writeCompressed_pinned hobjects hpeel out).symm.trans hwrite
  have hsent := sendArchive_pinned hobjects hpeel m
  refine ⟨tree, commit, htree, hx, hpeel, hpinned, hsent, ?_, ?_⟩
  · rintro rfl
    exact ⟨hpinned, hsent⟩
  · intro hordinary hsize archive harchive
    exact readsAsSnapshot_iff_alike
      (readsAsSnapshot_of_write hobjects hpeel hordinary hsize harchive)

/-- An empty tree, and a tree that holds it. The tag leads to one of them. -/
def nestedStore (current : ObjectId) : MemoryStore where
  refs := [("refs/tags/v1.0.0", ⟨⟨current⟩, 0⟩)]
  trees := [(.ofNat 1, []), (.ofNat 2, [⟨Bytes.ascii "empty", .ofNat 1, .directory, 0o40000⟩])]
  blobs := []
  refused := []
  listingRefused := false
  count := 2

theorem hasTree_nestedStore (current : ObjectId) :
    HasTree (nestedStore current).view (.release 1 0 0) ⟨current⟩ where
  listed := ⟨["refs/tags/v1.0.0"], rfl, _, List.mem_singleton.mpr rfl, .release 1 0 0,
    ⟨"1.0.0", rfl, rfl⟩, rfl⟩
  peeled := ⟨⟨⟨current⟩, 0⟩, rfl, rfl⟩

theorem accepted_nestedStore (m : ServedModule) :
    (m.checkTree (nestedStore (.ofNat 1)).view (.release 1 0 0)
      (TreeId.text ⟨.ofNat 1⟩)).outcome.1 = .ok () :=
  m.checkTree_ok_iff.mpr ⟨_, hasTree_nestedStore _, List.mem_cons_self⟩

theorem sameObjects_nestedStore (id id' : ObjectId) :
    SameObjects (nestedStore id).view (nestedStore id').view := ⟨rfl, rfl, rfl⟩

theorem length_empty (time : Int64) :
    (Archive.snapshotTrace ((nestedStore (.ofNat 1)).view.pinned ⟨⟨.ofNat 1⟩, time⟩) 4
      ⟨⟨.ofNat 1⟩, time⟩).events.flatten.length = 1024 := by
  have hevents : (Archive.snapshotTrace ((nestedStore (.ofNat 1)).view.pinned ⟨⟨.ofNat 1⟩, time⟩) 4
      ⟨⟨.ofNat 1⟩, time⟩).events = [Tar.trailer] := rfl
  rw [hevents]
  decide +kernel

theorem length_nested :
    (Archive.snapshotTrace (nestedStore (.ofNat 2)).view 4
      ⟨⟨.ofNat 2⟩, 0⟩).events.flatten.length = 1536 := by
  decide +kernel

/-- A client asks for the empty tree while the tag is moved to the other one, and gets that. -/
theorem moved_tag_served :
    ¬∀ (s₁ s₂ : ObjectStore) (m : ServedModule) (v : Version) (supplied : String)
      (archive : Collected), SameObjects s₁ s₂ →
      (m.checkTree s₁ v supplied).outcome.1 = .ok () →
      Archive.writeCompressed s₂ v Collected.unlimited = (.ok (), archive) →
      ∃ (tree : TreeId) (time : Int64), supplied ∈ tree.spellings ∧
        Archive.writeCompressed (s₁.pinned ⟨tree, time⟩) v Collected.unlimited =
          (.ok (), archive) := by
  intro h
  obtain ⟨archive, front, hwrite, hfooter⟩ := Archive.writeCompressed_unlimited
    (s := (nestedStore (.ofNat 2)).view) (v := .release 1 0 0) rfl
    (Trace.outcome_ok_iff.mpr (by decide +kernel))
  obtain ⟨tree, time, hx, hasked⟩ := h _ _ ⟨⟨"a", "b", "c", by decide⟩, ⟨[], ""⟩⟩ _ _ archive
    (sameObjects_nestedStore (.ofNat 1) (.ofNat 2)) (accepted_nestedStore _) hwrite
  obtain rfl : tree = ⟨.ofNat 1⟩ := TreeId.eq_of_mem_spellings hx List.mem_cons_self
  obtain ⟨archive', front', hwrite', hfooter'⟩ := Archive.writeCompressed_unlimited
    (s := (nestedStore (.ofNat 1)).view.pinned ⟨⟨.ofNat 1⟩, time⟩) (v := .release 1 0 0) rfl rfl
  cases hasked.symm.trans hwrite'
  -- The footers differ, because the other tree is written with a header before the end.
  have hfooters : Bytes.littleEndian 4 1536 = Bytes.littleEndian 4 1024 :=
    calc Bytes.littleEndian 4 1536
      _ = _ := congrArg (Bytes.littleEndian 4) length_nested.symm
      _ = _ := Gzip.footer_length (hfooter.symm.trans hfooter')
      _ = Bytes.littleEndian 4 1024 := congrArg (Bytes.littleEndian 4) (length_empty time)
  revert hfooters
  decide

theorem snapshotOf_empty (current : ObjectId) :
    SnapshotOf (nestedStore current).view (.ofNat 1) [] :=
  snapshotOf_walk (rfl : (walk (nestedStore current).view 1 (.ofNat 1) []).outcome = .ok ())

theorem snapshotOf_nested (current : ObjectId) :
    SnapshotOf (nestedStore current).view (.ofNat 2) [⟨Bytes.ascii "empty", .directory⟩] :=
  snapshotOf_walk (rfl : (walk (nestedStore current).view 2 (.ofNat 2) []).outcome = .ok ())

theorem readTree_nestedStore {current tree : ObjectId} {entries : List TreeEntry}
    (hreach : Reachable (nestedStore current).view (.ofNat 2) tree)
    (hread : (nestedStore current).view.readTree tree = .ok entries) :
    entries = [⟨Bytes.ascii "empty", .ofNat 1, .directory, 0o40000⟩] ∨ entries = [] := by
  induction hreach generalizing entries with
  | root => exact .inl (Except.ok.inj (hread.symm.trans rfl))
  | step _ read mem kind ih =>
    obtain rfl | rfl := ih read
    · rw [List.mem_singleton.mp mem] at hread
      exact .inr (Except.ok.inj (hread.symm.trans rfl))
    · cases mem

theorem ordinary_nestedStore (current : ObjectId) :
    Ordinary (nestedStore current).view (.ofNat 2) where
  names hreach hread hmem := by
    obtain rfl | rfl := readTree_nestedStore hreach hread
    · rw [List.mem_singleton.mp hmem]
      exact ⟨by decide, by decide, by decide, by decide, by decide⟩
    · cases hmem
  targets hreach hread hmem hkind hblob := by
    obtain rfl | rfl := readTree_nestedStore hreach hread
    · rw [List.mem_singleton.mp hmem] at hkind
      cases hkind
    · cases hmem

theorem not_alike_nestedStore (current : ObjectId) :
    ¬AlikeSnapshots (nestedStore current).view ⟨.ofNat 1⟩ ⟨.ofNat 2⟩ := by
  rintro ⟨items, items', hitems, hitems', halike⟩
  rw [hitems.unique (snapshotOf_empty current),
    hitems'.unique (snapshotOf_nested current)] at halike
  cases halike

theorem served_archive_nestedStore :
    (∃ archive, Archive.writeCompressed (nestedStore (.ofNat 1)).view (.release 1 0 0)
        Collected.unlimited = (.ok (), archive) ∧
      Archive.writeCompressed ((nestedStore (.ofNat 1)).view.pinned ⟨⟨.ofNat 1⟩, 0⟩)
        (.release 1 0 0) Collected.unlimited = (.ok (), archive)) ∧
    ∃ archive, Archive.write (nestedStore (.ofNat 2)).view (.release 1 0 0) Collected.unlimited =
        (.ok (), archive) ∧
      ¬ReadsAsSnapshot (nestedStore (.ofNat 1)).view ⟨.ofNat 1⟩ ⟨⟨.ofNat 2⟩, 0⟩
        archive.toList := by
  have hpeel (id : ObjectId) : (nestedStore id).view.peel (Version.release 1 0 0).tagRef =
      .ok ⟨⟨id⟩, 0⟩ := rfl
  have hok : (Archive.snapshotTrace (nestedStore (.ofNat 2)).view 4 ⟨⟨.ofNat 2⟩, 0⟩).outcome =
      .ok () := Trace.outcome_ok_iff.mpr (by decide +kernel)
  constructor
  · obtain ⟨archive, -, hwrite, -⟩ := Archive.writeCompressed_unlimited (hpeel (.ofNat 1)) rfl
    obtain ⟨tree, commit, htree, -, hcommit, -, -, hunmoved, -⟩ := served_archive
      (sameObjects_nestedStore (.ofNat 1) (.ofNat 1))
      (accepted_nestedStore ⟨⟨"a", "b", "c", by decide⟩, ⟨[], ""⟩⟩) hwrite
    cases htree.unique (hasTree_nestedStore _)
    cases (hpeel _).symm.trans hcommit
    exact ⟨archive, hwrite, (hunmoved rfl).1⟩
  · obtain ⟨compressed, -, hcompressed, -⟩ :=
      Archive.writeCompressed_unlimited (hpeel (.ofNat 2)) hok
    obtain ⟨archive, hwrite, -, -⟩ := Archive.write_takesAll Collected.takesAll
      (rfl : Collected.takesAll.ready .unlimited) (hpeel (.ofNat 2))
    have hwritten : Archive.write (nestedStore (.ofNat 2)).view (.release 1 0 0)
        Collected.unlimited = (.ok (), archive) := hwrite.trans (congrArg (·, archive) hok)
    obtain ⟨tree, commit, htree, -, hcommit, -, -, -, hreads⟩ := served_archive
      (sameObjects_nestedStore (.ofNat 1) (.ofNat 2))
      (accepted_nestedStore ⟨⟨"a", "b", "c", by decide⟩, ⟨[], ""⟩⟩) hcompressed
    cases htree.unique (hasTree_nestedStore _)
    cases (hpeel _).symm.trans hcommit
    refine ⟨archive, hwritten, ?_⟩
    rw [hreads (ordinary_nestedStore _) ?_ archive hwritten]
    · exact not_alike_nestedStore _
    · intro items hitems item hmem
      rw [hitems.unique (snapshotOf_nested _)] at hmem
      rw [List.mem_singleton.mp hmem]
      exact ⟨by decide, by decide⟩

end TagRegistry
