import TagRegistry.Proofs.Nesting
import TagRegistry.Proofs.PartialArchive
import TagRegistry.Proofs.SealedArchive

/-! Objects that cannot be read while an archive is written.

A run is followed with its questions to the store. In a store that refuses some objects it is the
same run, up to the first question for one of them: there it ends. -/

namespace TagRegistry

open Tar

namespace Archive

/-! ## Runs with their questions -/

/-- What a run does: it asks the store for an object, or writes. -/
inductive Act where
  | ask (id : ObjectId)
  | put (octets : Bytes)
  deriving DecidableEq, Repr

def Act.asked? : Act → Option ObjectId
  | .ask id => some id
  | .put _ => none

def Act.put? : Act → Option Bytes
  | .ask _ => none
  | .put octets => some octets

/-- A run that only writes. -/
def putting (t : Trace Bytes ArchiveError) : Trace Act ArchiveError :=
  t.keep fun bs => some (.put bs)

/-- Asks the store for an object and goes on with its answer. -/
def asking {α : Type} (id : ObjectId) (f : α → Trace Act ArchiveError) :
    Except StoreError α → Trace Act ArchiveError
  | .ok a => (Trace.one (.ask id)).andThen (f a)
  | .error cause => ⟨[.ask id], .error (.store cause)⟩

/-- What a run does about an entry. `below` is what it does below a tree at a path. -/
def entryActs (s : ObjectStore) (mtime : Nat) (below : ObjectId → Bytes → Trace Act ArchiveError)
    (above : Bytes) (entry : TreeEntry) : Trace Act ArchiveError :=
  let path := above ++ entry.name
  match entry.kind with
  | .directory =>
    (putting (itemTrace mtime ⟨path, .directory⟩)).andThen (below entry.oid (path ++ [Bytes.slash]))
  | .file =>
    asking entry.oid (fun content => putting (itemTrace mtime ⟨path, .file entry.mode content⟩))
      (s.readBlob entry.oid)
  | .symlink =>
    asking entry.oid (fun target => putting (itemTrace mtime ⟨path, .symlink target⟩))
      (s.readBlob entry.oid)
  | .submodule => .done

def treeActs (s : ObjectStore) (mtime : Nat) : Nat → ObjectId → Bytes → Trace Act ArchiveError
  | 0, tree, _ => .stop (.store (.endless tree))
  | depth + 1, tree, above =>
    asking tree
      (fun entries => .sequence (entries.map (entryActs s mtime (treeActs s mtime depth) above)))
      (s.readTree tree)

def snapshotActs (s : ObjectStore) (depth : Nat) (commit : Snapshot) : Trace Act ArchiveError :=
  (treeActs s (memberTime commit) depth commit.tree.oid []).andThen (.one (.put trailer))

/-! ## Runs without their questions -/

theorem keep_putting (t : Trace Bytes ArchiveError) : (putting t).keep Act.put? = t := by
  have hevents : t.events.filterMap (fun bs => (some (Act.put bs)).bind Act.put?) = t.events :=
    List.filterMap_some
  rw [putting, Trace.keep, Trace.keep, List.filterMap_filterMap, hevents]

theorem keep_asking {α : Type} {id : ObjectId} {f : α → Trace Act ArchiveError}
    {g : α → Trace Item StoreError} {answer : Except StoreError α} {mtime : Nat}
    (h : ∀ a, (f a).keep Act.put? = (g a).expand (itemTrace mtime) .store) :
    (asking id f answer).keep Act.put? = (answered g answer).expand (itemTrace mtime) .store := by
  cases answer with
  | ok a =>
    rw [asking, Trace.keep_andThen, h]
    rfl
  | error cause => rfl

theorem keep_treeActs (s : ObjectStore) (mtime depth : Nat) (tree : ObjectId) (above : Bytes) :
    (treeActs s mtime depth tree above).keep Act.put? = treeTrace s mtime depth tree above := by
  induction depth generalizing tree above with
  | zero => rfl
  | succ depth ih =>
    rw [treeActs, treeTrace, walk]
    refine keep_asking fun entries => ?_
    rw [Trace.keep_sequence, Trace.expand_sequence, List.map_map, List.map_map]
    refine congrArg Trace.sequence (List.map_congr_left fun entry _ => ?_)
    rw [Function.comp, Function.comp, entryActs, walkEntry]
    cases entry.kind with
    | directory =>
      simp only [Trace.keep_andThen, keep_putting, ih, Trace.expand_andThen, Trace.expand_one]
      rfl
    | file => exact keep_asking fun content => by rw [keep_putting, Trace.expand_one]
    | symlink => exact keep_asking fun target => by rw [keep_putting, Trace.expand_one]
    | submodule => rfl

/-- A run writes what the snapshot is written as. -/
theorem keep_snapshotActs (s : ObjectStore) (depth : Nat) (commit : Snapshot) :
    (snapshotActs s depth commit).keep Act.put? = snapshotTrace s depth commit := by
  rw [snapshotActs, Trace.keep_andThen, keep_treeActs]
  rfl

/-! ## Refused objects -/

end Archive

/-- The store with further objects that it refuses. -/
def MemoryStore.refuseAll (m : MemoryStore) (ids : List ObjectId) : MemoryStore :=
  ids.foldl refuseObject m

section Refusal

variable (m : MemoryStore) (ids : List ObjectId)

theorem MemoryStore.refuseAll_eq :
    m.refuseAll ids = { m with refused := ids.reverse ++ m.refused } := by
  induction ids generalizing m with
  | nil => rfl
  | cons id ids ih =>
    rw [refuseAll, List.foldl_cons, ← refuseAll, ih, List.reverse_cons, List.append_assoc]
    rfl

theorem MemoryStore.read_refuseAll {α : Type} (objects : List (ObjectId × α)) (id : ObjectId) :
    (m.refuseAll ids).read objects id =
      if id ∈ ids then .error (.readRefused id) else m.read objects id := by
  rw [refuseAll_eq]
  unfold read
  by_cases hid : id ∈ ids <;> simp [hid]

theorem MemoryStore.readTree_refuseAll (id : ObjectId) :
    (m.refuseAll ids).view.readTree id =
      if id ∈ ids then .error (.readRefused id) else m.view.readTree id := by
  have h := m.read_refuseAll ids m.trees id
  rwa [refuseAll_eq] at h ⊢

theorem MemoryStore.readBlob_refuseAll (id : ObjectId) :
    (m.refuseAll ids).view.readBlob id =
      if id ∈ ids then .error (.readRefused id) else m.view.readBlob id := by
  have h := m.read_refuseAll ids m.blobs id
  rwa [refuseAll_eq] at h ⊢

theorem MemoryStore.peel_refuseAll (name : String) :
    (m.refuseAll ids).view.peel name = m.view.peel name := by
  rw [refuseAll_eq]
  rfl

theorem MemoryStore.treeIds_refuseAll : (m.refuseAll ids).view.treeIds = m.view.treeIds := by
  rw [refuseAll_eq]
  rfl

end Refusal

namespace Archive

/-- Why a run ends at an act, if some objects are refused. -/
def refusal? (ids : List ObjectId) : Act → Option ArchiveError
  | .ask id => if id ∈ ids then some (.store (.readRefused id)) else none
  | .put _ => none

section Refusal

variable {ids : List ObjectId}

theorem interrupt_putting (t : Trace Bytes ArchiveError) :
    (putting t).interrupt (refusal? ids) = putting t := by
  refine Trace.interrupt_eq_self fun act hmem => ?_
  obtain ⟨bs, -, hact⟩ := List.mem_filterMap.mp hmem
  cases hact
  rfl

theorem interrupt_asking {α : Type} {id : ObjectId} {f f' : α → Trace Act ArchiveError}
    {answer : Except StoreError α} (h : ∀ a, f' a = (f a).interrupt (refusal? ids)) :
    (asking id f answer).interrupt (refusal? ids) =
      asking id f' (if id ∈ ids then .error (.readRefused id) else answer) := by
  by_cases hid : id ∈ ids
  · have hcause : refusal? ids (.ask id) = some (.store (.readRefused id)) := if_pos hid
    rw [if_pos hid]
    cases answer with
    | ok a =>
      rw [asking, Trace.interrupt_andThen, Trace.one, Trace.interrupt_cons_some hcause]
      rfl
    | error cause => exact Trace.interrupt_cons_some hcause
  · have hcause : refusal? ids (.ask id) = none := if_neg hid
    rw [if_neg hid]
    cases answer with
    | ok a =>
      rw [asking, Trace.interrupt_andThen, Trace.one, Trace.interrupt_cons_none hcause, ← h]
      rfl
    | error cause => exact Trace.interrupt_cons_none hcause

/-- With refused objects a run ends at the first question for one of them. -/
theorem treeActs_refuseAll (m : MemoryStore) (mtime depth : Nat) (tree : ObjectId) (above : Bytes) :
    treeActs (m.refuseAll ids).view mtime depth tree above =
      (treeActs m.view mtime depth tree above).interrupt (refusal? ids) := by
  induction depth generalizing tree above with
  | zero => rfl
  | succ depth ih =>
    rw [treeActs, treeActs, m.readTree_refuseAll]
    refine (interrupt_asking fun entries => ?_).symm
    rw [Trace.interrupt_sequence, List.map_map]
    refine congrArg Trace.sequence (List.map_congr_left fun entry _ => ?_)
    rw [Function.comp, entryActs, entryActs, m.readBlob_refuseAll]
    cases entry.kind with
    | directory => simp only [Trace.interrupt_andThen, interrupt_putting, ih]
    | file => exact (interrupt_asking fun content => (interrupt_putting _).symm).symm
    | symlink => exact (interrupt_asking fun target => (interrupt_putting _).symm).symm
    | submodule => rfl

theorem snapshotActs_refuseAll (m : MemoryStore) (depth : Nat) (commit : Snapshot) :
    snapshotActs (m.refuseAll ids).view depth commit =
      (snapshotActs m.view depth commit).interrupt (refusal? ids) := by
  rw [snapshotActs, snapshotActs, Trace.interrupt_andThen, treeActs_refuseAll]
  rfl

end Refusal

end Archive

/-! ## Writing with refused objects -/

theorem MemoryStore.holds_of_refuseAll {m : MemoryStore} {ids : List ObjectId}
    {tree child : ObjectId} (h : Holds (m.refuseAll ids).view tree child) :
    Holds m.view tree child := by
  obtain ⟨entries, entry, hread, hentry⟩ := h
  rw [m.readTree_refuseAll] at hread
  split at hread
  · cases hread
  · exact ⟨entries, entry, hread, hentry⟩

theorem MemoryStore.reachable_of_refuseAll {m : MemoryStore} {ids : List ObjectId}
    {root tree : ObjectId} (h : Reachable (m.refuseAll ids).view root tree) :
    Reachable m.view root tree := by
  induction h with
  | root => exact .root
  | step _ read mem kind ih =>
    exact ih.holds (holds_of_refuseAll ⟨_, _, read, mem, kind, rfl⟩)

theorem MemoryStore.acyclic_refuseAll {m : MemoryStore} {root : ObjectId} (ids : List ObjectId)
    (h : Acyclic m.view root) : Acyclic (m.refuseAll ids).view root := fun hreach hc hback =>
  h (reachable_of_refuseAll hreach) (holds_of_refuseAll hc) (reachable_of_refuseAll hback)

/-- A store in memory refuses objects or does not find them. It does not say that it is endless. -/
theorem MemoryStore.readFailure_ne_endless {m : MemoryStore} {root tree : ObjectId} :
    ¬ReadFailure m.view root (.endless tree) := by
  have hread {α : Type} {objects : List (ObjectId × α)} {id : ObjectId} :
      m.read objects id ≠ .error (.endless tree) := by
    unfold read
    split
    · exact nofun
    · split <;> exact nofun
  rintro (⟨-, h⟩ | ⟨-, -, -, -, h⟩)
  · exact hread h
  · exact hread h

namespace Archive

variable {σ : Type} [Sink σ]

/-- The objects that the store is asked for while the archive of a version is written. -/
def askedFor (s : ObjectStore) (v : Version) (out : σ) : List ObjectId :=
  match s.peel v.tagRef with
  | .ok commit => (snapshotActs s (depthFor s out) commit).events.filterMap Act.asked?
  | .error _ => []

theorem depthFor_refuseAll (m : MemoryStore) (ids : List ObjectId) (out : σ) :
    depthFor (m.refuseAll ids).view out = depthFor m.view out := by
  rw [depthFor, depthFor, m.treeIds_refuseAll]

/-- Nothing is ever written without a tag. -/
theorem write_untagged {s : ObjectStore} {v : Version} {failure : StoreError}
    (h : s.peel v.tagRef = .error failure) (out : σ) :
    write s v out = (.error (.store failure), out) := by
  rw [write, Catalog.resolveCommit, h]

/-- A run asks for an object that is refused exactly if one of its questions is for it. -/
theorem exists_refusal_iff {t : Trace Act ArchiveError} {ids : List ObjectId} :
    (∃ act ∈ t.events, refusal? ids act ≠ none) ↔
      ∃ id ∈ ids, id ∈ t.events.filterMap Act.asked? := by
  constructor
  · rintro ⟨act, hmem, hact⟩
    cases act with
    | ask id =>
      have hid : id ∈ ids := by
        by_contra hid
        exact hact (if_neg hid)
      exact ⟨id, hid, List.mem_filterMap.mpr ⟨_, hmem, rfl⟩⟩
    | put octets => exact absurd rfl hact
  · rintro ⟨id, hid, hmem⟩
    obtain ⟨act, hmem, hact⟩ := List.mem_filterMap.mp hmem
    cases act with
    | ask asked =>
      cases hact
      exact ⟨_, hmem, by rw [refusal?, if_pos hid]; exact nofun⟩
    | put octets => cases hact

theorem refusal?_eq_some {ids : List ObjectId} {act : Act} {cause : ArchiveError}
    (h : refusal? ids act = some cause) : ∃ id ∈ ids, cause = .store (.readRefused id) := by
  cases act with
  | ask id =>
    rw [refusal?] at h
    split at h
    · next hid =>
      cases h
      exact ⟨id, hid, rfl⟩
    · cases h
  | put octets => cases h

/-- A run with refused objects next to the run without them. -/
theorem snapshotTrace_refuseAll (m : MemoryStore) (ids : List ObjectId) (depth : Nat)
    (commit : Snapshot) :
    octetsOf (snapshotTrace (m.refuseAll ids).view depth commit) <+:
        octetsOf (snapshotTrace m.view depth commit) ∧
      ((∀ id ∈ ids, id ∉ (snapshotActs m.view depth commit).events.filterMap Act.asked?) →
        snapshotTrace (m.refuseAll ids).view depth commit = snapshotTrace m.view depth commit) ∧
      ((∃ id ∈ ids, id ∈ (snapshotActs m.view depth commit).events.filterMap Act.asked?) →
        ∃ id ∈ ids, (snapshotTrace (m.refuseAll ids).view depth commit).outcome =
          .error (.store (.readRefused id))) := by
  rw [← keep_snapshotActs, ← keep_snapshotActs, snapshotActs_refuseAll]
  generalize snapshotActs m.view depth commit = t
  refine ⟨?_, fun hno => ?_, fun hasked => ?_⟩
  · obtain ⟨rest, hrest⟩ := (Trace.events_interrupt (refusal? ids) t).filterMap Act.put?
    refine ⟨rest.flatten, ?_⟩
    rw [octetsOf, octetsOf, Trace.keep, Trace.keep, ← List.flatten_append, hrest]
  · rw [Trace.interrupt_eq_self fun act hmem => ?_]
    by_contra hact
    obtain ⟨id, hid, hasked⟩ := exists_refusal_iff.mp ⟨act, hmem, hact⟩
    exact hno id hid hasked
  · obtain ⟨act, -, cause, hcause, houtcome⟩ :=
      Trace.outcome_interrupt (exists_refusal_iff.mpr hasked)
    obtain ⟨id, hid, rfl⟩ := refusal?_eq_some hcause
    exact ⟨id, hid, houtcome⟩

/-- Objects that cannot be read only cut an archive short, at the first question for one of them,
and what is left of an archive is never taken for one, whatever a dropped builder still tries to
write. -/
theorem interruption (all : TakesAll σ) (ending : List Bytes) (m : MemoryStore)
    (ids : List ObjectId) (v : Version) {out : σ} (hready : all.ready out)
    (hroot : ∀ root, Acyclic m.view root) :
    ∃ octets octets',
      all.taken (writeSealing ending m.view v out).2 = all.taken out ++ octets ∧
      all.taken (writeSealing ending (m.refuseAll ids).view v out).2 =
        all.taken out ++ octets' ∧
      octets' <+: octets ∧
      ((∀ id ∈ ids, id ∉ askedFor m.view v out) →
        (writeSealing ending (m.refuseAll ids).view v out).1 =
          (writeSealing ending m.view v out).1 ∧ octets' = octets) ∧
      ((∃ id ∈ ids, id ∈ askedFor m.view v out) → ∃ id ∈ ids,
        (writeSealing ending (m.refuseAll ids).view v out).1 =
          .error (.store (.readRefused id))) ∧
      (∀ failure, m.view.peel v.tagRef = .error failure →
        writeSealing ending (m.refuseAll ids).view v out = (.error (.store failure), out)) ∧
      ∀ cause commit, (writeSealing ending (m.refuseAll ids).view v out).1 = .error cause →
        m.view.peel v.tagRef = .ok commit → (∀ tree, cause ≠ .store (.endless tree)) ∧
          NoArchive (memberTime commit)
            (walk (m.refuseAll ids).view (depthFor m.view out) commit.tree.oid []).events
            octets' := by
  simp only [writeSealing_eq]
  have hpeel := m.peel_refuseAll ids v.tagRef
  cases htag : m.view.peel v.tagRef with
  | error failure =>
    rw [htag] at hpeel
    rw [write_untagged htag, write_untagged hpeel, askedFor, htag]
    exact ⟨[], [], by simp, by simp, List.prefix_rfl, fun _ => ⟨rfl, rfl⟩, by simp,
      fun failure h => by cases h; rfl, nofun⟩
  | ok commit =>
    rw [htag] at hpeel
    obtain ⟨last, hwrite, -, htaken⟩ := write_takesAll all hready htag
    -- Refused objects change neither the tag nor the number of levels.
    obtain ⟨last', hwrite', -, htaken'⟩ := write_takesAll all hready hpeel
    rw [depthFor_refuseAll] at hwrite' htaken'
    obtain ⟨hfront, hno, hasked⟩ := snapshotTrace_refuseAll m ids (depthFor m.view out) commit
    rw [hwrite, hwrite', askedFor, htag]
    refine ⟨_, _, htaken, htaken', hfront, fun h => ?_, hasked, nofun, ?_⟩
    · rw [hno h]
      exact ⟨rfl, rfl⟩
    · rintro cause _ hcause ⟨⟩
      refine ⟨?_, ?_⟩
      · rintro tree rfl
        have hwalk := walk_of_storeFailure hcause
        have hdepth : (m.refuseAll ids).view.treeIds.length < depthFor m.view out := by
          rw [m.treeIds_refuseAll]
          exact lt_depthFor m.view out
        exact MemoryStore.readFailure_ne_endless
          (readFailure_of_walk (MemoryStore.acyclic_refuseAll ids (hroot _)) hdepth hwalk)
      · obtain ⟨written, members, rest, h⟩ := unfinished_of_error hcause
        exact h.noArchive (memberTime_lt commit)

theorem holds_toolStore {tree child : ObjectId} (h : Holds toolStore.view tree child) :
    tree = .ofNat 1 ∧ child = .ofNat 2 := by
  obtain ⟨entries, entry, hread, hmem, hkind, rfl⟩ := h
  have hknown : tree ∈ [ObjectId.ofNat 1, .ofNat 2] := toolStore.view.mem_treeIds hread
  simp only [List.mem_cons, List.not_mem_nil, or_false] at hknown
  obtain rfl | rfl := hknown
  · obtain rfl := Except.ok.inj (hread.symm.trans rfl)
    simp only [List.mem_cons, List.not_mem_nil, or_false] at hmem
    obtain rfl | rfl | rfl := hmem
    · exact ⟨rfl, rfl⟩
    · cases hkind
    · cases hkind
  · obtain rfl := Except.ok.inj (hread.symm.trans rfl)
    rw [List.mem_singleton.mp hmem] at hkind
    cases hkind

theorem acyclic_toolStore (root : ObjectId) : Acyclic toolStore.view root := by
  refine acyclic_of_rank (fun id => if id = .ofNat 1 then 1 else 0) fun hc => ?_
  obtain ⟨rfl, rfl⟩ := holds_toolStore hc
  decide

/-- The first file of a store cannot be read: its directory is all that is left, although the trailer
is tried behind it. -/
theorem interruption_toolStore : ∃ octets octets',
    (writeSealing [trailer] toolStore.view (.release 1 0 0) Collected.unlimited).2.toList =
        octets ∧
      (writeSealing [trailer] (toolStore.refuseAll [.ofNat 4]).view (.release 1 0 0)
        Collected.unlimited).2.toList = octets' ∧
      octets' <+: octets ∧
      (writeSealing [trailer] (toolStore.refuseAll [.ofNat 4]).view (.release 1 0 0)
        Collected.unlimited).1 = .error (.store (.readRefused (.ofNat 4))) ∧
      blockSize ∣ octets'.length ∧ Tar.read? octets' = none := by
  have hready : Collected.takesAll.ready .unlimited := rfl
  have htag : toolStore.view.peel (Version.release 1 0 0).tagRef = .ok ⟨⟨.ofNat 1⟩, -5⟩ := rfl
  have hitems : (walk (toolStore.refuseAll [.ofNat 4]).view
      (depthFor toolStore.view Collected.unlimited) (.ofNat 1) []).events =
        [⟨Bytes.ascii "bin", .directory⟩] := by decide +kernel
  obtain ⟨octets, octets', htaken, htaken', hfront, -, hasked, -, hleft⟩ :=
    interruption Collected.takesAll [trailer] toolStore [.ofNat 4] (.release 1 0 0) hready
      acyclic_toolStore
  obtain ⟨id, hid, hresult⟩ := hasked ⟨.ofNat 4, by decide, by decide +kernel⟩
  obtain ⟨-, hleft⟩ := hleft _ _ hresult htag
  rw [List.mem_singleton.mp hid] at hresult
  rw [hitems] at hleft
  simp only [Collected.takesAll_taken, Collected.toList_unlimited, List.nil_append]
    at htaken htaken'
  refine ⟨octets, octets', htaken, htaken', hfront, hresult, hleft.blocks, hleft.unreadable ?_⟩
  intro item hmem
  rw [List.mem_singleton.mp hmem]
  exact ⟨by decide, by decide⟩

end Archive

end TagRegistry
