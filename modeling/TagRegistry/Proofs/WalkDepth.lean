import TagRegistry.Proofs.Interruption
import TagRegistry.Proofs.StoreHistory

/-! How deep the walk through a snapshot is nested.

The walk goes from a tree to its directories by their identifiers. `Ends` says how one call ends by
how the calls for the directories end, and knows no bound: a tree that contains itself has no
derivation. In a store that was built from the bottom up every directory of a tree has a smaller
number than the tree or none at all, so that no tree contains itself and the calls are nested at most
one level deeper than there are trees. -/

namespace TagRegistry

namespace Archive

variable {σ : Type} [Sink σ] {blame : Blame σ} {s : ObjectStore} {mtime depth : Nat}
  {tree child : ObjectId}

/-! ## One call -/

/-- What one call does for a tree, where `below` stands for the calls for its directories. -/
def level (blame : Blame σ) (s : ObjectStore) (mtime : Nat)
    (below : ObjectId → Bytes → Emit σ Unit) (tree : ObjectId) (above : Bytes) : Emit σ Unit := do
  let entries ← ask (s.readTree tree)
  entries.forM fun entry => do
    let path := above ++ entry.name
    match entry.kind with
    | .directory =>
      append blame (path ++ [Bytes.slash]) (appendDirectory (path ++ [Bytes.slash]) mtime)
      below entry.oid (path ++ [Bytes.slash])
    | .file =>
      let content ← ask (s.readBlob entry.oid)
      append blame path (appendFile path entry.mode content mtime)
    | .symlink =>
      let target ← ask (s.readBlob entry.oid)
      append blame path (appendLink path target mtime)
    | .submodule => pure ()

theorem emitTree_succ (tree : ObjectId) (above : Bytes) :
    (emitTree blame s mtime (depth + 1) tree above : Emit σ Unit) =
      level blame s mtime (emitTree blame s mtime depth) tree above := rfl

/-- A call for a tree ends like this, with calls nested at most so deep, itself included. -/
inductive Ends (blame : Blame σ) (s : ObjectStore) (mtime : Nat) :
    Nat → ObjectId → Bytes → σ → Except ArchiveError Unit × σ → Prop where
  | call {depth : Nat} {tree : ObjectId} {above : Bytes} {out : σ}
    (below : ObjectId → Bytes → Emit σ Unit)
    (ends : ∀ {child}, Holds s tree child → ∀ path next,
      Ends blame s mtime depth child path next (below child path next)) :
    Ends blame s mtime (depth + 1) tree above out (level blame s mtime below tree above out)

omit [Sink σ] in
theorem forM_congr {α : Type} {f g : α → Emit σ Unit} {as : List α} (h : ∀ a ∈ as, f a = g a) :
    as.forM f = as.forM g := by
  induction as with
  | nil => rfl
  | cons a as ih =>
    change (do f a; as.forM f) = (do g a; as.forM g)
    rw [h a List.mem_cons_self, ih fun b hb => h b (List.mem_cons_of_mem a hb)]

/-- One call depends on the calls for the directories of its tree only. -/
theorem level_congr {below below' : ObjectId → Bytes → Emit σ Unit}
    (h : ∀ {child}, Holds s tree child → below child = below' child) (above : Bytes) :
    level blame s mtime below tree above = level blame s mtime below' tree above := by
  rw [level, level]
  cases hread : s.readTree tree with
  | error cause => rfl
  | ok entries =>
    simp only [ask, pure_bind]
    refine forM_congr fun entry hmem => ?_
    cases hk : entry.kind with
    | directory => simp only [h ⟨entries, entry, hread, hmem, hk, rfl⟩]
    | file | symlink | submodule => rfl

theorem Ends.emitTree_eq {depth' : Nat} {above : Bytes} {out : σ} {r : Except ArchiveError Unit × σ}
    (h : Ends blame s mtime depth tree above out r) (hle : depth ≤ depth') :
    emitTree blame s mtime depth' tree above out = r := by
  induction h generalizing depth' with
  | call below ends ih =>
    obtain ⟨k, rfl⟩ : ∃ k, depth' = k + 1 := ⟨depth' - 1, by omega⟩
    rw [emitTree_succ]
    refine congrFun (level_congr (fun hc => ?_) _) _
    funext path next
    exact ih hc path next (by omega)

/-- Where no tree contains itself, calls are nested at most one level deeper than there are trees. -/
theorem ends_of_acyclic (hroot : Acyclic s tree) (hdepth : s.treeIds.length < depth)
    (blame : Blame σ) (mtime : Nat) (above : Bytes) (out : σ) :
    Ends blame s mtime depth tree above out (emitTree blame s mtime depth tree above out) := by
  have hall : ∀ path next, Ends blame s mtime depth tree path next
      (emitTree blame s mtime depth tree path next : Except ArchiveError Unit × σ) :=
    hroot.induction (motive := fun depth tree => ∀ path next, Ends blame s mtime depth tree path next
        (emitTree blame s mtime depth tree path next : Except ArchiveError Unit × σ))
      (fun _ hbelow _ _ => .call _ fun hc => hbelow hc) hdepth
  exact hall above out

/-- Behind a walk that got through to the end, the trailer is written. -/
def closed : Except ArchiveError Unit × σ → Except ArchiveError Unit × σ
  | (.ok (), out) => emit Tar.trailer out
  | (.error cause, out) => (.error cause, out)

theorem write_eq_closed {v : Version} {commit : Snapshot} (h : s.peel v.tagRef = .ok commit)
    (out : σ) : write s v out =
      closed (emitTree blameCause s (memberTime commit) (depthFor s out) commit.tree.oid [] out) := by
  rw [write_eq_writeSnapshot h]
  change (do emitTree blameCause s (memberTime commit) (depthFor s out) commit.tree.oid []
             emit Tar.trailer : Emit σ Unit) out = _
  simp only [bind, ExceptT.bind, ExceptT.mk, StateT.bind]
  obtain ⟨result, last⟩ := (emitTree blameCause s (memberTime commit) (depthFor s out)
    commit.tree.oid [] : Emit σ Unit) out
  cases result <;> rfl

end Archive

namespace MemoryStore

/-! ## Stores that are built from the bottom up -/

/-- The directories of a tree that is added have identifiers that were handed out before, or that are
never handed out. -/
def BottomUp (changes : List Change) : Prop :=
  ∀ {before after : List Change} {entries : List TreeEntry},
    changes = before ++ .tree entries :: after → ∀ entry ∈ entries, entry.kind = .directory →
      entry.oid ∈ handedOut before ∨ entry.oid ∉ handedOut changes

/-- The number of an identifier that was handed out, and zero for any other. -/
def rankIn (ids : List ObjectId) (id : ObjectId) : Nat := if id ∈ ids then ids.idxOf id + 1 else 0

variable {changes : List Change} {tree child : ObjectId}

theorem Change.eq_of_tree? {c : Change} {entries : List TreeEntry} (h : c.tree? = some entries) :
    c = .tree entries := by
  cases c with
  | tree others => rw [Option.some.inj h]
  | blob | tag | refuseObject | refuseListing => cases h

/-- Each place of a history can be looked at on its own. -/
theorem bottomUp_iff : BottomUp changes ↔ ∀ i : Fin changes.length,
    ∀ entries ∈ changes[i].tree?.toList, ∀ entry ∈ entries, entry.kind = .directory →
      entry.oid ∈ handedOut (changes.take i) ∨ entry.oid ∉ handedOut changes := by
  constructor
  · intro h i entries hentries
    have hchange : changes[i] = .tree entries := Change.eq_of_tree? (Option.mem_toList.mp hentries)
    have hsplit : changes = changes.take i ++ .tree entries :: changes.drop (i + 1) := by
      rw [← hchange, Fin.getElem_fin, List.getElem_cons_drop, List.take_append_drop]
    exact h hsplit
  · intro h before after entries hchanges
    subst hchanges
    have hlt : before.length < (before ++ .tree entries :: after).length := by
      rw [List.length_append, List.length_cons]
      omega
    have hplace := h ⟨before.length, hlt⟩ entries
    rw [Fin.getElem_fin, List.getElem_append_right le_rfl, List.take_left] at hplace
    simp only [Nat.sub_self, List.getElem_cons_zero] at hplace
    exact hplace (List.mem_singleton_self entries)

instance : DecidablePred BottomUp := fun _ => decidable_of_iff _ bottomUp_iff.symm

theorem handedOut_prefix (before after : List Change) :
    handedOut before <+: handedOut (before ++ after) := by
  induction after using List.reverseRecOn with
  | nil => simp
  | append_singleton after c ih =>
    rw [← List.append_assoc, handedOut, handedOut, run_concat]
    exact ih.trans (List.prefix_append ..)

/-- What is handed out before an identifier has a smaller number, and what is never handed out too. -/
theorem rankIn_lt {before rest : List ObjectId} (hnodup : (before ++ tree :: rest).Nodup)
    (h : child ∈ before ∨ child ∉ before ++ tree :: rest) :
    rankIn (before ++ tree :: rest) child < rankIn (before ++ tree :: rest) tree := by
  have htree : tree ∉ before := fun hmem =>
    List.disjoint_of_nodup_append hnodup hmem List.mem_cons_self
  have hrank : rankIn (before ++ tree :: rest) tree = before.length + 1 := by
    rw [rankIn, if_pos (by simp), List.idxOf_append_of_notMem htree, List.idxOf_cons_self]
  rw [hrank, rankIn]
  rcases h with hmem | hnever
  · rw [if_pos (List.mem_append_left _ hmem), List.idxOf_append_of_mem hmem]
    exact Nat.succ_lt_succ (List.idxOf_lt_length_of_mem hmem)
  · rw [if_neg hnever]
    exact Nat.succ_pos _

theorem lookup_of_read {α : Type} {m : MemoryStore} {objects : List (ObjectId × α)}
    {id : ObjectId} {a : α} (h : m.read objects id = .ok a) : objects.lookup id = some a := by
  unfold read at h
  split at h
  · cases h
  · split at h
    · next found hlookup => rw [hlookup, Except.ok.inj h]
    · cases h

/-- Every directory of a tree ranks below the tree. -/
theorem rankIn_lt_of_holds (hcount : objectsIn changes < 2 ^ 64) (hbuilt : BottomUp changes)
    (h : Holds (run changes).2.view tree child) :
    rankIn (handedOut changes) child < rankIn (handedOut changes) tree := by
  obtain ⟨entries, entry, hread, hmem, hkind, rfl⟩ := h
  have hstored : (tree, entries) ∈ (run changes).2.trees :=
    Table.mem_of_lookup_eq_some (lookup_of_read hread)
  obtain ⟨c, ⟨before, after, hchanges, hanswer⟩, hadded⟩ := (mem_objects_iff treeKind).mp hstored
  cases Change.eq_of_tree? hadded
  -- The tree is the next that is handed out after what was handed out before it.
  have hids : handedOut before ++ [tree] <+: handedOut changes := by
    have hprefix := handedOut_prefix (before ++ [.tree entries]) after
    rw [handedOut, run_concat, hanswer, List.append_assoc, List.singleton_append, ← hchanges]
      at hprefix
    exact hprefix
  obtain ⟨rest, hrest⟩ := hids
  rw [List.append_assoc, List.singleton_append] at hrest
  have hnodup := nodup_handedOut hcount
  have hbelow := hbuilt hchanges entry hmem hkind
  rw [← hrest] at hnodup hbelow ⊢
  exact rankIn_lt hnodup hbelow

/-- A store that was built from the bottom up has no tree inside itself. -/
theorem acyclic_of_bottomUp (hcount : objectsIn changes < 2 ^ 64) (hbuilt : BottomUp changes)
    (root : ObjectId) : Acyclic (run changes).2.view root :=
  acyclic_of_rank (rankIn (handedOut changes)) (rankIn_lt_of_holds hcount hbuilt)

theorem length_treeIds (m : MemoryStore) : m.view.treeIds.length = m.trees.length :=
  List.length_map _

theorem after?_eq_some {m : MemoryStore} (h : after? changes = some m) :
    (run changes).2 = m ∧ objectsIn changes < 2 ^ 64 := by
  rw [after?, Option.ite_none_right_eq_some, count_run] at h
  exact ⟨Option.some.inj h.2, h.1⟩

/-- In a store that was built from the bottom up every call of the walk ends, with calls nested at most
one level deeper than there are trees, and so does the writing of every version: without its tag
nothing is written, and with it the walk from its tree decides. -/
theorem walk_ends {σ : Type} [Sink σ] {m : MemoryStore} (hm : after? changes = some m)
    (hbuilt : BottomUp changes) :
    (∀ (blame : Archive.Blame σ) mtime tree above (out : σ),
      ∃ r, Archive.Ends blame m.view mtime (m.trees.length + 1) tree above out r) ∧
    ∀ (v : Version) (out : σ),
      (∀ cause, m.view.peel v.tagRef = .error cause →
        Archive.write m.view v out = (.error (.store cause), out)) ∧
      ∀ commit, m.view.peel v.tagRef = .ok commit →
        ∃ r, Archive.Ends Archive.blameCause m.view (Archive.memberTime commit)
            (m.trees.length + 1) commit.tree.oid [] out r ∧
          Archive.write m.view v out = Archive.closed r := by
  obtain ⟨rfl, hcount⟩ := after?_eq_some hm
  rw [← length_treeIds]
  have hlevels := Nat.lt_succ_self (run changes).2.view.treeIds.length
  have hends (blame : Archive.Blame σ) (mtime : Nat) (tree : ObjectId) (above : Bytes) (out : σ) :=
    Archive.ends_of_acyclic (acyclic_of_bottomUp hcount hbuilt tree) hlevels blame mtime above out
  refine ⟨fun blame mtime tree above out => ⟨_, hends blame mtime tree above out⟩,
    fun v out => ⟨?_, ?_⟩⟩
  · exact fun cause htag => Archive.write_untagged htag out
  · intro commit htag
    have hend := hends Archive.blameCause (Archive.memberTime commit) commit.tree.oid [] out
    refine ⟨_, hend, ?_⟩
    rw [Archive.write_eq_closed htag, hend.emitTree_eq (Archive.lt_depthFor _ out)]

/-- A tree that stands twice in another one, beside a tree that is missing. -/
def sharedTrees : List Change :=
  [.tree [], .tree [⟨Bytes.ascii "a", .ofNat 1, .directory, 0o40000⟩,
      ⟨Bytes.ascii "b", .ofNat 1, .directory, 0o40000⟩,
      ⟨Bytes.ascii "gone", .ofNat 9, .directory, 0o40000⟩],
    .tag "refs/tags/v1.0.0" (.ofNat 2) 100, .refuseObject (.ofNat 1)]

theorem walk_ends_sharedTrees : BottomUp sharedTrees ∧
    ∃ m, after? sharedTrees = some m ∧ m.trees.length = 2 ∧
      m.view.peel "refs/tags/v1.0.0" = .ok ⟨⟨.ofNat 2⟩, 100⟩ ∧
      ∃ r, Archive.Ends Archive.blameCause m.view 100 3 (.ofNat 2) [] Collected.unlimited r ∧
        Archive.write m.view (.release 1 0 0) Collected.unlimited = Archive.closed r := by
  have hbuilt : BottomUp sharedTrees := by decide +kernel
  have hm : after? sharedTrees = some (run sharedTrees).2 := by
    have htwo : (run sharedTrees).2.count = 2 := rfl
    rw [after?, htwo]
    norm_num
  obtain ⟨-, hversions⟩ := @walk_ends sharedTrees Collected _ _ hm hbuilt
  obtain ⟨-, htagged⟩ := hversions (.release 1 0 0) Collected.unlimited
  have htag : (run sharedTrees).2.view.peel "refs/tags/v1.0.0" = .ok ⟨⟨.ofNat 2⟩, 100⟩ := rfl
  exact ⟨hbuilt, _, hm, rfl, htag, htagged _ htag⟩

end MemoryStore

end TagRegistry
