import TagRegistry.Proofs.PathSteps
import TagRegistry.Proofs.Trace
import TagRegistry.Store.Basic

/-! The items of a snapshot.

`Unfolds` says which items stand below a tree, from the top and in the order of the store.
`walk` finds them and only asks the store; where it ends well, it has found them all. -/

namespace TagRegistry

open TagRegistry.Path (LegalName LegalPath LegalAbove)

/-! ## What a walk finds -/

/-- What stands at a path of a snapshot. -/
inductive Entity where
  | directory
  | file (mode : UInt32) (content : Bytes)
  | symlink (target : Bytes)
  deriving DecidableEq, Repr

/-- A path of a snapshot, from its root, with what stands there. -/
structure Item where
  path : Bytes
  entity : Entity
  deriving DecidableEq, Repr

/-- Goes on with an answer of the store. -/
def answered {α : Type} (f : α → Trace Item StoreError) :
    Except StoreError α → Trace Item StoreError
  | .ok a => f a
  | .error cause => .stop cause

/-- The items of an entry. `below` finds those of a tree at a path. -/
def walkEntry (s : ObjectStore) (below : ObjectId → Bytes → Trace Item StoreError) (above : Bytes)
    (entry : TreeEntry) : Trace Item StoreError :=
  let path := above ++ entry.name
  match entry.kind with
  | .directory => (Trace.one ⟨path, .directory⟩).andThen (below entry.oid (path ++ [Bytes.slash]))
  | .file => answered (fun content => .one ⟨path, .file entry.mode content⟩) (s.readBlob entry.oid)
  | .symlink => answered (fun target => .one ⟨path, .symlink target⟩) (s.readBlob entry.oid)
  | .submodule => .done

/-- The items below a tree, from the top, in the order of the store. -/
def walk (s : ObjectStore) : Nat → ObjectId → Bytes → Trace Item StoreError
  | 0, tree, _ => .stop (.endless tree)
  | depth + 1, tree, above =>
    answered (fun entries => .sequence (entries.map (walkEntry s (walk s depth) above)))
      (s.readTree tree)

/-! ## What stands in a snapshot -/

/-- The items of a list of entries, from the top, in the order of the store. A directory comes
before what stands in it, and a commit of another repository is no item. `above` is the path of
the directory that holds the entries, with a slash at its end. -/
inductive Unfolds (s : ObjectStore) : Bytes → List TreeEntry → List Item → Prop where
  | nil {above : Bytes} : Unfolds s above [] []
  | directory {above : Bytes} {entry : TreeEntry} {entries inside : List TreeEntry}
      {below items : List Item} (kind : entry.kind = .directory)
      (tree : s.readTree entry.oid = .ok inside)
      (down : Unfolds s (above ++ entry.name ++ [Bytes.slash]) inside below)
      (next : Unfolds s above entries items) :
      Unfolds s above (entry :: entries) (⟨above ++ entry.name, .directory⟩ :: (below ++ items))
  | file {above content : Bytes} {entry : TreeEntry} {entries : List TreeEntry}
      {items : List Item} (kind : entry.kind = .file) (blob : s.readBlob entry.oid = .ok content)
      (next : Unfolds s above entries items) :
      Unfolds s above (entry :: entries)
        (⟨above ++ entry.name, .file entry.mode content⟩ :: items)
  | symlink {above target : Bytes} {entry : TreeEntry} {entries : List TreeEntry}
      {items : List Item} (kind : entry.kind = .symlink) (blob : s.readBlob entry.oid = .ok target)
      (next : Unfolds s above entries items) :
      Unfolds s above (entry :: entries) (⟨above ++ entry.name, .symlink target⟩ :: items)
  | submodule {above : Bytes} {entry : TreeEntry} {entries : List TreeEntry}
      {items : List Item} (kind : entry.kind = .submodule) (next : Unfolds s above entries items) :
      Unfolds s above (entry :: entries) items

/-- The items of a tree, with paths from that tree. -/
def SnapshotOf (s : ObjectStore) (tree : ObjectId) (items : List Item) : Prop :=
  ∃ entries, s.readTree tree = .ok entries ∧ Unfolds s [] entries items

theorem Unfolds.unique {s : ObjectStore} {above : Bytes} {entries : List TreeEntry}
    {items items' : List Item} (h : Unfolds s above entries items)
    (h' : Unfolds s above entries items') : items = items' := by
  induction h generalizing items' with
  | nil =>
    cases h'
    rfl
  | directory kind tree _ _ ihd ihn =>
    cases h' with
    | directory kind' tree' down' next' =>
      rw [tree] at tree'
      cases tree'
      rw [ihd down', ihn next']
    | file kind' | symlink kind' | submodule kind' => rw [kind] at kind'; cases kind'
  | file kind blob _ ihn =>
    cases h' with
    | file kind' blob' next' =>
      rw [blob] at blob'
      cases blob'
      rw [ihn next']
    | directory kind' | symlink kind' | submodule kind' => rw [kind] at kind'; cases kind'
  | symlink kind blob _ ihn =>
    cases h' with
    | symlink kind' blob' next' =>
      rw [blob] at blob'
      cases blob'
      rw [ihn next']
    | directory kind' | file kind' | submodule kind' => rw [kind] at kind'; cases kind'
  | submodule kind _ ihn =>
    cases h' with
    | submodule kind' next' => exact ihn next'
    | directory kind' | file kind' | symlink kind' => rw [kind] at kind'; cases kind'

theorem SnapshotOf.unique {s : ObjectStore} {tree : ObjectId} {items items' : List Item}
    (h : SnapshotOf s tree items) (h' : SnapshotOf s tree items') : items = items' := by
  obtain ⟨entries, hread, hunfolds⟩ := h
  obtain ⟨entries', hread', hunfolds'⟩ := h'
  rw [hread] at hread'
  cases hread'
  exact hunfolds.unique hunfolds'

/-! ## What a walk finds is what stands there -/

theorem answered_ok {α : Type} {f : α → Trace Item StoreError} {answer : Except StoreError α}
    (h : (answered f answer).outcome = .ok ()) :
    ∃ a, answer = .ok a ∧ answered f answer = f a := by
  cases answer with
  | error cause => cases h
  | ok a => exact ⟨a, rfl, rfl⟩

/-- One entry that a walk gets past. -/
theorem unfolds_cons {s : ObjectStore} {below : ObjectId → Bytes → Trace Item StoreError}
    (hbelow : ∀ {tree : ObjectId} {above : Bytes}, (below tree above).outcome = .ok () →
      ∃ entries, s.readTree tree = .ok entries ∧ Unfolds s above entries (below tree above).events)
    {above : Bytes} {entry : TreeEntry} {entries : List TreeEntry} {items : List Item}
    (h : (walkEntry s below above entry).outcome = .ok ()) (next : Unfolds s above entries items) :
    Unfolds s above (entry :: entries) ((walkEntry s below above entry).events ++ items) := by
  unfold walkEntry at h ⊢
  cases hk : entry.kind with
  | directory =>
    simp only [hk] at h ⊢
    obtain ⟨-, hdown⟩ := Trace.andThen_ok_iff.mp h
    obtain ⟨inside, hread, hunfolds⟩ := hbelow hdown
    rw [Trace.events_andThen rfl]
    exact .directory hk hread hunfolds next
  | file =>
    simp only [hk] at h ⊢
    obtain ⟨content, hread, heq⟩ := answered_ok h
    rw [heq]
    exact .file hk hread next
  | symlink =>
    simp only [hk] at h ⊢
    obtain ⟨target, hread, heq⟩ := answered_ok h
    rw [heq]
    exact .symlink hk hread next
  | submodule => exact .submodule hk next

/-- A walk that ends well has found the items of its tree. -/
theorem unfolds_walk {s : ObjectStore} {depth : Nat} {tree : ObjectId} {above : Bytes}
    (h : (walk s depth tree above).outcome = .ok ()) :
    ∃ entries, s.readTree tree = .ok entries ∧
      Unfolds s above entries (walk s depth tree above).events := by
  induction depth generalizing tree above with
  | zero => cases h
  | succ depth ih =>
    rw [walk] at h ⊢
    obtain ⟨entries, hread, heq⟩ := answered_ok h
    rw [heq] at h ⊢
    refine ⟨entries, hread, ?_⟩
    clear hread heq
    -- The induction over the depth has its hypothesis for every tree; this one is over one tree.
    induction entries with
    | nil => exact .nil
    | cons entry entries ihe =>
      rw [List.map_cons, Trace.sequence] at h ⊢
      obtain ⟨hentry, hrest⟩ := Trace.andThen_ok_iff.mp h
      rw [Trace.events_andThen hentry]
      exact unfolds_cons ih hentry (ihe hrest)

theorem snapshotOf_walk {s : ObjectStore} {depth : Nat} {tree : ObjectId}
    (h : (walk s depth tree []).outcome = .ok ()) :
    SnapshotOf s tree (walk s depth tree []).events :=
  unfolds_walk h

/-! ## Ordinary snapshots -/

/-- A tree that can be reached from a tree, directory by directory. -/
inductive Reachable (s : ObjectStore) (root : ObjectId) : ObjectId → Prop where
  | root : Reachable s root root
  | step {tree : ObjectId} {entries : List TreeEntry} {entry : TreeEntry}
      (above : Reachable s root tree) (read : s.readTree tree = .ok entries)
      (mem : entry ∈ entries) (kind : entry.kind = .directory) : Reachable s root entry.oid

/-- Everything that can be reached has legal names, and no link target holds a NUL. -/
structure Ordinary (s : ObjectStore) (root : ObjectId) : Prop where
  names {tree : ObjectId} {entries : List TreeEntry} {entry : TreeEntry} :
    Reachable s root tree → s.readTree tree = .ok entries → entry ∈ entries → LegalName entry.name
  targets {tree : ObjectId} {entries : List TreeEntry} {entry : TreeEntry} {target : Bytes} :
    Reachable s root tree → s.readTree tree = .ok entries → entry ∈ entries →
      entry.kind = .symlink → s.readBlob entry.oid = .ok target → 0 ∉ target

theorem Reachable.trans {s : ObjectStore} {a b c : ObjectId} (h : Reachable s a b)
    (h' : Reachable s b c) : Reachable s a c := by
  induction h' with
  | root => exact h
  | step _ read mem kind ih => exact ih.step read mem kind

theorem Ordinary.below {s : ObjectStore} {root tree : ObjectId} (h : Ordinary s root)
    (hr : Reachable s root tree) : Ordinary s tree where
  names hreach := h.names (hr.trans hreach)
  targets hreach := h.targets (hr.trans hreach)

/-- An entry that an ordinary snapshot may hold. -/
structure OrdinaryEntry (s : ObjectStore) (entry : TreeEntry) : Prop where
  name : LegalName entry.name
  target {target : Bytes} : entry.kind = .symlink → s.readBlob entry.oid = .ok target → 0 ∉ target
  inside : entry.kind = .directory → Ordinary s entry.oid

theorem Ordinary.entry {s : ObjectStore} {root : ObjectId} {entries : List TreeEntry}
    (h : Ordinary s root) (hread : s.readTree root = .ok entries) :
    ∀ entry ∈ entries, OrdinaryEntry s entry := fun _ hmem =>
  ⟨h.names .root hread hmem, h.targets .root hread hmem,
    fun kind => h.below (Reachable.root.step hread hmem kind)⟩

/-- An item with a legal path and no NUL in its target. -/
structure Item.Legal (item : Item) : Prop where
  path : LegalPath item.path
  target {target : Bytes} : item.entity = .symlink target → 0 ∉ target

theorem Unfolds.legal {s : ObjectStore} {above : Bytes} {entries : List TreeEntry}
    {items : List Item} (h : Unfolds s above entries items) (ha : LegalAbove above)
    (ho : ∀ entry ∈ entries, OrdinaryEntry s entry) : ∀ item ∈ items, item.Legal := by
  induction h with
  | nil => intro item hmem; cases hmem
  | directory kind tree _ _ ihd ihn =>
    have hentry := ho _ List.mem_cons_self
    have hpath := ha.path hentry.name
    intro item hmem
    rcases List.mem_cons.mp hmem with rfl | hmem
    · exact ⟨hpath, nofun⟩
    · rcases List.mem_append.mp hmem with hmem | hmem
      · exact ihd hpath.above ((hentry.inside kind).entry tree) item hmem
      · exact ihn ha (fun e he => ho e (List.mem_cons_of_mem _ he)) item hmem
  | file kind blob _ ihn =>
    intro item hmem
    rcases List.mem_cons.mp hmem with rfl | hmem
    · exact ⟨ha.path (ho _ List.mem_cons_self).name, nofun⟩
    · exact ihn ha (fun e he => ho e (List.mem_cons_of_mem _ he)) item hmem
  | symlink kind blob _ ihn =>
    have hentry := ho _ List.mem_cons_self
    intro item hmem
    rcases List.mem_cons.mp hmem with rfl | hmem
    · refine ⟨ha.path hentry.name, ?_⟩
      rintro _ ⟨⟩
      exact hentry.target kind blob
    · exact ihn ha (fun e he => ho e (List.mem_cons_of_mem _ he)) item hmem
  | submodule _ _ ihn => exact ihn ha fun e he => ho e (List.mem_cons_of_mem _ he)

/-- Every item of an ordinary snapshot is legal. -/
theorem SnapshotOf.legal {s : ObjectStore} {tree : ObjectId} {items : List Item}
    (h : SnapshotOf s tree items) (ho : Ordinary s tree) : ∀ item ∈ items, item.Legal := by
  obtain ⟨entries, hread, hunfolds⟩ := h
  exact hunfolds.legal (.inl rfl) (ho.entry hread)

end TagRegistry
