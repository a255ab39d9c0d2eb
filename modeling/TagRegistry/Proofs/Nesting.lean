import Mathlib.Data.List.Perm.Subperm
import TagRegistry.Proofs.ArchiveTrace

/-! Trees inside trees.

A walk counts the levels of nesting and gives up when there are more than trees in the store. That
happens only where a tree contains itself: on a way down without such a tree no tree occurs twice.
So a walk fails only where the store fails, and a snapshot has a list of items exactly if
everything in it can be read and no tree contains itself. -/

namespace TagRegistry

variable {s : ObjectStore} {root tree child : ObjectId}

/-! ## Nesting -/

/-- A tree has another one as a directory. -/
def Holds (s : ObjectStore) (tree child : ObjectId) : Prop :=
  ∃ entries entry, s.readTree tree = .ok entries ∧ entry ∈ entries ∧ entry.kind = .directory ∧
    entry.oid = child

/-- No tree that can be reached contains itself, directly or through others. -/
def Acyclic (s : ObjectStore) (root : ObjectId) : Prop :=
  ∀ {tree child : ObjectId}, Reachable s root tree → Holds s tree child → ¬Reachable s child tree

/-- Everything that can be reached can be read. -/
structure Intact (s : ObjectStore) (root : ObjectId) : Prop where
  trees {tree : ObjectId} : Reachable s root tree → ∃ entries, s.readTree tree = .ok entries
  blobs {tree : ObjectId} {entries : List TreeEntry} {entry : TreeEntry} :
    Reachable s root tree → s.readTree tree = .ok entries → entry ∈ entries →
      entry.kind = .file ∨ entry.kind = .symlink → ∃ content, s.readBlob entry.oid = .ok content

theorem Reachable.holds (h : Reachable s root tree) (hc : Holds s tree child) :
    Reachable s root child := by
  obtain ⟨entries, entry, hread, hmem, hkind, rfl⟩ := hc
  exact h.step hread hmem hkind

theorem Reachable.rank_le {rank : ObjectId → Nat}
    (h : ∀ {tree child}, Holds s tree child → rank child < rank tree)
    (hr : Reachable s root tree) : rank tree ≤ rank root := by
  induction hr with
  | root => exact Nat.le_refl _
  | step _ read mem kind ih => exact Nat.le_trans (Nat.le_of_lt (h ⟨_, _, read, mem, kind, rfl⟩)) ih

/-- Where every tree has a higher rank than those it has as directories, none contains itself. -/
theorem acyclic_of_rank (rank : ObjectId → Nat)
    (h : ∀ {tree child}, Holds s tree child → rank child < rank tree) : Acyclic s root :=
  fun _ hc hback => absurd (h hc) (Nat.not_lt.mpr (hback.rank_le h))

/-- The trees on a way down to a tree, which is none of them. -/
structure Ancestry (s : ObjectStore) (tree : ObjectId) (ancestors : List ObjectId) : Prop where
  nodup : ancestors.Nodup
  known : ancestors ⊆ s.treeIds
  above : ∀ a ∈ ancestors, ∃ child, Holds s a child ∧ Reachable s child tree

theorem Ancestry.length_le {ancestors : List ObjectId} (h : Ancestry s tree ancestors) :
    ancestors.length ≤ s.treeIds.length :=
  (List.subperm_of_subset h.nodup h.known).length_le

theorem Ancestry.down {ancestors : List ObjectId} (h : Ancestry s tree ancestors)
    (hroot : Acyclic s root) (hreach : Reachable s root tree) (hc : Holds s tree child) :
    Ancestry s child (tree :: ancestors) where
  nodup := by
    refine List.nodup_cons.mpr ⟨fun hmem => ?_, h.nodup⟩
    obtain ⟨between, hheld, hback⟩ := h.above tree hmem
    exact hroot hreach hheld hback
  known := by
    obtain ⟨entries, entry, hread, -⟩ := hc
    exact List.cons_subset.mpr ⟨s.mem_treeIds hread, h.known⟩
  above a hmem := by
    rcases List.mem_cons.mp hmem with rfl | hmem
    · exact ⟨child, hc, .root⟩
    · obtain ⟨between, hheld, hdown⟩ := h.above a hmem
      exact ⟨between, hheld, hdown.holds hc⟩

/-- What holds of a tree with one more level than it holds of its directories with, holds of the root
with more levels than there are trees. -/
theorem Acyclic.induction {motive : Nat → ObjectId → Prop} (hroot : Acyclic s root)
    (step : ∀ {depth tree}, Reachable s root tree →
      (∀ {child}, Holds s tree child → motive depth child) → motive (depth + 1) tree)
    {depth : Nat} (hdepth : s.treeIds.length < depth) : motive depth root := by
  have hdown {depth : Nat} {tree : ObjectId} {ancestors : List ObjectId}
      (hreach : Reachable s root tree) (hway : Ancestry s tree ancestors)
      (hdepth : s.treeIds.length < depth + ancestors.length) : motive depth tree := by
    induction depth generalizing tree ancestors with
    | zero =>
      -- There would be more trees on the way down than in the store.
      have hle := hway.length_le
      omega
    | succ depth ih =>
      refine step hreach fun hc => ih (hreach.holds hc) (hway.down hroot hreach hc) ?_
      rw [List.length_cons]
      omega
  exact hdown .root ⟨List.nodup_nil, List.nil_subset _, nofun⟩ hdepth

/-! ## What a walk fails with -/

/-- The store fails when it is asked for something that can be reached. -/
inductive ReadFailure (s : ObjectStore) (root : ObjectId) (cause : StoreError) : Prop where
  | tree {tree : ObjectId} (reach : Reachable s root tree) (read : s.readTree tree = .error cause)
  | blob {tree : ObjectId} {entries : List TreeEntry} {entry : TreeEntry}
      (reach : Reachable s root tree) (read : s.readTree tree = .ok entries) (mem : entry ∈ entries)
      (kind : entry.kind = .file ∨ entry.kind = .symlink)
      (blob : s.readBlob entry.oid = .error cause)

theorem Intact.no_failure (h : Intact s root) (cause : StoreError) :
    ¬ReadFailure s root cause := by
  rintro (⟨reach, read⟩ | ⟨reach, read, mem, kind, blob⟩)
  · obtain ⟨entries, hread⟩ := h.trees reach
    rw [hread] at read
    cases read
  · obtain ⟨content, hblob⟩ := h.blobs reach read mem kind
    rw [hblob] at blob
    cases blob

theorem answered_error {α : Type} {f : α → Trace Item StoreError} {answer : Except StoreError α}
    {cause : StoreError} (h : (answered f answer).outcome = .error cause) :
    answer = .error cause ∨ ∃ a, answer = .ok a ∧ (f a).outcome = .error cause := by
  cases answer with
  | error e =>
    cases h
    exact .inl rfl
  | ok a => exact .inr ⟨a, rfl, h⟩

/-- A walk fails in a tree as the store does, if walks below its directories do. -/
theorem readFailure_of_walk_succ {depth : Nat} {above : Bytes} {cause : StoreError}
    (hreach : Reachable s root tree)
    (hbelow : ∀ {child}, Holds s tree child → ∀ path,
      (walk s depth child path).outcome = .error cause → ReadFailure s root cause)
    (h : (walk s (depth + 1) tree above).outcome = .error cause) : ReadFailure s root cause := by
  rw [walk] at h
  obtain hread | ⟨entries, hread, h⟩ := answered_error h
  · exact .tree hreach hread
  obtain ⟨entry, hmem, hentry⟩ := Trace.sequence_map_error h
  unfold walkEntry at hentry
  cases hk : entry.kind with
  | directory =>
    simp only [hk] at hentry
    obtain hentry | hentry := Trace.andThen_error hentry
    · cases hentry
    · exact hbelow ⟨entries, entry, hread, hmem, hk, rfl⟩ _ hentry
  | file =>
    simp only [hk] at hentry
    obtain hblob | ⟨content, -, hdone⟩ := answered_error hentry
    · exact .blob hreach hread hmem (.inl hk) hblob
    · cases hdone
  | symlink =>
    simp only [hk] at hentry
    obtain hblob | ⟨target, -, hdone⟩ := answered_error hentry
    · exact .blob hreach hread hmem (.inr hk) hblob
    · cases hdone
  | submodule =>
    simp only [hk] at hentry
    cases hentry

/-- Where no tree contains itself, a walk with more levels than there are trees fails only as the
store does. -/
theorem readFailure_of_walk {depth : Nat} {above : Bytes} {cause : StoreError}
    (hroot : Acyclic s root) (hdepth : s.treeIds.length < depth)
    (h : (walk s depth root above).outcome = .error cause) : ReadFailure s root cause := by
  have hall : ∀ path, (walk s depth root path).outcome = .error cause → ReadFailure s root cause :=
    hroot.induction (motive := fun depth tree =>
        ∀ path, (walk s depth tree path).outcome = .error cause → ReadFailure s root cause)
      (fun hreach hbelow _ => readFailure_of_walk_succ hreach hbelow) hdepth
  exact hall above h

/-! ## Levels that are enough -/

/-- Walks find the same in a tree if they do below its directories. -/
theorem walk_succ_congr {depth depth' : Nat} (above : Bytes)
    (hbelow : ∀ {child}, Holds s tree child → ∀ path,
      walk s depth child path = walk s depth' child path) :
    walk s (depth + 1) tree above = walk s (depth' + 1) tree above := by
  rw [walk, walk]
  cases hread : s.readTree tree with
  | error cause => rfl
  | ok entries =>
    refine congrArg Trace.sequence (List.map_congr_left fun entry hmem => ?_)
    rw [walkEntry, walkEntry]
    cases hk : entry.kind with
    | directory => simp only [hbelow ⟨entries, entry, hread, hmem, hk, rfl⟩]
    | file | symlink | submodule => rfl

/-- Where no tree contains itself, walks with more levels than there are trees find the same. -/
theorem walk_eq_of_acyclic {depth depth' : Nat} (hroot : Acyclic s root)
    (hdepth : s.treeIds.length < depth) (hdepth' : s.treeIds.length < depth') (above : Bytes) :
    walk s depth root above = walk s depth' root above := by
  have hnext {depth : Nat} (hdepth : s.treeIds.length < depth) :
      ∀ path, walk s depth root path = walk s (depth + 1) root path :=
    hroot.induction (motive := fun depth tree =>
        ∀ path, walk s depth tree path = walk s (depth + 1) tree path)
      (fun _ hbelow path => walk_succ_congr path hbelow) hdepth
  have hleast {depth : Nat} (hdepth : s.treeIds.length < depth) :
      walk s depth root above = walk s (s.treeIds.length + 1) root above := by
    induction hdepth with
    | refl => rfl
    | step hle ih => rw [← hnext hle above, ih]
  rw [hleast hdepth, hleast hdepth']

/-! ## Snapshots that have a list of items -/

/-- Where a tree hangs changes the paths of its items, not their number. -/
theorem Unfolds.elsewhere {above : Bytes} {entries : List TreeEntry} {items : List Item}
    (h : Unfolds s above entries items) (above' : Bytes) :
    ∃ items', Unfolds s above' entries items' ∧ items'.length = items.length := by
  induction h generalizing above' with
  | nil => exact ⟨[], .nil, rfl⟩
  | directory kind read _ _ ihd ihn =>
    obtain ⟨below, hdown, hbelow⟩ := ihd (above' ++ _ ++ [Bytes.slash])
    obtain ⟨items, hnext, hitems⟩ := ihn above'
    exact ⟨_, .directory kind read hdown hnext, by simp [hbelow, hitems]⟩
  | file kind blob _ ih =>
    obtain ⟨items, hnext, hitems⟩ := ih above'
    exact ⟨_, .file kind blob hnext, by simp [hitems]⟩
  | symlink kind blob _ ih =>
    obtain ⟨items, hnext, hitems⟩ := ih above'
    exact ⟨_, .symlink kind blob hnext, by simp [hitems]⟩
  | submodule kind _ ih =>
    obtain ⟨items, hnext, hitems⟩ := ih above'
    exact ⟨_, .submodule kind hnext, hitems⟩

/-- A directory of a snapshot has fewer items than the snapshot. -/
theorem Unfolds.inside {above : Bytes} {entries : List TreeEntry} {items : List Item}
    (h : Unfolds s above entries items) {entry : TreeEntry} (hmem : entry ∈ entries)
    (hkind : entry.kind = .directory) :
    ∃ items', SnapshotOf s entry.oid items' ∧ items'.length < items.length := by
  induction h with
  | nil => cases hmem
  | directory kind read down _ _ ihn =>
    rcases List.mem_cons.mp hmem with rfl | hmem
    · obtain ⟨items', hdown, hlength⟩ := down.elsewhere []
      refine ⟨items', ⟨_, read, hdown⟩, ?_⟩
      rw [List.length_cons, List.length_append]
      omega
    · obtain ⟨items', hitems', hlength⟩ := ihn hmem
      refine ⟨items', hitems', ?_⟩
      rw [List.length_cons, List.length_append]
      omega
  | file kind _ _ ih | symlink kind _ _ ih =>
    rcases List.mem_cons.mp hmem with rfl | hmem
    · rw [hkind] at kind
      cases kind
    · obtain ⟨items', hitems', hlength⟩ := ih hmem
      exact ⟨items', hitems', Nat.lt_succ_of_lt hlength⟩
  | submodule kind _ ih =>
    rcases List.mem_cons.mp hmem with rfl | hmem
    · rw [hkind] at kind
      cases kind
    · exact ih hmem

theorem Unfolds.blob {above : Bytes} {entries : List TreeEntry} {items : List Item}
    (h : Unfolds s above entries items) {entry : TreeEntry} (hmem : entry ∈ entries)
    (hkind : entry.kind = .file ∨ entry.kind = .symlink) :
    ∃ content, s.readBlob entry.oid = .ok content := by
  induction h with
  | nil => cases hmem
  | file _ read _ ih | symlink _ read _ ih =>
    rcases List.mem_cons.mp hmem with rfl | hmem
    · exact ⟨_, read⟩
    · exact ih hmem
  | directory kind _ _ _ _ ih | submodule kind _ ih =>
    rcases List.mem_cons.mp hmem with rfl | hmem
    · rw [kind] at hkind
      rcases hkind with hkind | hkind <;> cases hkind
    · exact ih hmem

theorem SnapshotOf.of_holds {items : List Item} (h : SnapshotOf s tree items)
    (hc : Holds s tree child) :
    ∃ items', SnapshotOf s child items' ∧ items'.length < items.length := by
  obtain ⟨entries, hread, hunfolds⟩ := h
  obtain ⟨entries', entry, hread', hmem, hkind, rfl⟩ := hc
  rw [hread] at hread'
  cases hread'
  exact hunfolds.inside hmem hkind

theorem SnapshotOf.of_reachable {items : List Item} (h : SnapshotOf s root items)
    (hr : Reachable s root tree) :
    ∃ items', SnapshotOf s tree items' ∧ items'.length ≤ items.length := by
  induction hr with
  | root => exact ⟨items, h, Nat.le_refl _⟩
  | step _ read mem kind ih =>
    obtain ⟨between, hbetween, hle⟩ := ih
    obtain ⟨items', hitems', hlt⟩ := hbetween.of_holds ⟨_, _, read, mem, kind, rfl⟩
    exact ⟨items', hitems', Nat.le_of_lt (Nat.lt_of_lt_of_le hlt hle)⟩

theorem SnapshotOf.acyclic {items : List Item} (h : SnapshotOf s root items) : Acyclic s root := by
  intro tree child hreach hheld hback
  obtain ⟨outer, houter, -⟩ := h.of_reachable hreach
  obtain ⟨inner, hinner, hlt⟩ := houter.of_holds hheld
  -- The items of the tree would be fewer than themselves.
  obtain ⟨again, hagain, hle⟩ := hinner.of_reachable hback
  rw [hagain.unique houter] at hle
  omega

theorem SnapshotOf.intact {items : List Item} (h : SnapshotOf s root items) : Intact s root where
  trees hreach := by
    obtain ⟨items', ⟨entries, hread, -⟩, -⟩ := h.of_reachable hreach
    exact ⟨entries, hread⟩
  blobs hreach hread hmem hkind := by
    obtain ⟨items', ⟨entries, hread', hunfolds⟩, -⟩ := h.of_reachable hreach
    rw [hread] at hread'
    cases hread'
    exact hunfolds.blob hmem hkind

theorem walk_ok {depth : Nat} (hroot : Acyclic s root) (hread : Intact s root)
    (hdepth : s.treeIds.length < depth) (above : Bytes) :
    (walk s depth root above).outcome = .ok () := by
  cases h : (walk s depth root above).outcome with
  | ok u => rfl
  | error cause => exact absurd (readFailure_of_walk hroot hdepth h) (hread.no_failure cause)

/-- A snapshot has a list of items exactly if all of it can be read and no tree contains itself. -/
theorem exists_snapshotOf_iff :
    (∃ items, SnapshotOf s root items) ↔ Intact s root ∧ Acyclic s root := by
  constructor
  · rintro ⟨items, h⟩
    exact ⟨h.intact, h.acyclic⟩
  · rintro ⟨hread, hroot⟩
    exact ⟨_, snapshotOf_walk (walk_ok hroot hread (Nat.lt_succ_self _) [])⟩

/-- A walk finds the items of a snapshot that has a list of them. -/
theorem SnapshotOf.walk_eq {items : List Item} {depth : Nat} (h : SnapshotOf s root items)
    (hdepth : s.treeIds.length < depth) : walk s depth root [] = ⟨items, .ok ()⟩ := by
  have hok := walk_ok h.acyclic h.intact hdepth []
  have hitems := (snapshotOf_walk hok).unique h
  rw [← hitems, ← hok]

/-! ## Archives of such snapshots -/

namespace Archive

variable {σ : Type} [Sink σ]

theorem lt_depthFor (s : ObjectStore) (out : σ) : s.treeIds.length < depthFor s out := by
  rw [depthFor, Nat.add_assoc]
  exact Nat.lt_add_of_pos_right (Nat.zero_lt_succ _)

/-- How writing to a sink that takes everything ends is up to the items. -/
theorem write_items (all : TakesAll σ) {v : Version} {commit : Snapshot} {items : List Item}
    {out : σ} (hready : all.ready out) (htag : s.peel v.tagRef = .ok commit)
    (h : SnapshotOf s commit.tree.oid items) :
    (write s v out).1 = (itemsTrace (memberTime commit) items).outcome := by
  obtain ⟨out', hwrite, -⟩ := write_takesAll all hready htag
  have hwalk := h.walk_eq (lt_depthFor s out)
  rw [hwrite, snapshotTrace_of_walk (by rw [hwalk]), hwalk, Trace.andThen]
  cases hitems : (itemsTrace (memberTime commit) items).outcome <;> rfl

theorem exists_snapshotOf_of_write (all : TakesAll σ) {v : Version} {commit : Snapshot} {out : σ}
    (hready : all.ready out) (htag : s.peel v.tagRef = .ok commit)
    (hwrite : (write s v out).1 = .ok ()) : ∃ items, SnapshotOf s commit.tree.oid items := by
  obtain ⟨out', hresult, -⟩ := write_takesAll all hready htag
  rw [hresult] at hwrite
  exact ⟨_, snapshotOf_walk (walk_of_snapshotTrace hwrite)⟩

end Archive

end TagRegistry
