import TagRegistry.Proofs.Listing
import TagRegistry.Service.Registry

/-! What the operations on one module come to.

Each lemma says how one function ends and what it logs, or exactly when it succeeds, so that later
arguments never run the requests again. -/

namespace TagRegistry

/-! ## Serving step by step -/

namespace Serving

variable {α β : Type}

theorem run_bind_ok {x : Serving α} {f : α → Serving β} {a : α} {log log' : List StoreFailure}
    (h : x.run.run log = (.ok a, log')) : (x >>= f).run.run log = (f a).run.run log' := by
  rw [ExceptT.run_bind, StateT.run_bind, h]
  rfl

theorem run_bind_error {x : Serving α} {f : α → Serving β} {e : RequestError}
    {log log' : List StoreFailure} (h : x.run.run log = (.error e, log')) :
    (x >>= f).run.run log = (.error e, log') := by
  rw [ExceptT.run_bind, StateT.run_bind, h]
  rfl

theorem outcome_bind_ok {x : Serving α} {f : α → Serving β} {a : α}
    (h : x.outcome = (.ok a, [])) : (x >>= f).outcome = (f a).outcome :=
  run_bind_ok h

theorem outcome_bind_error {x : Serving α} {f : α → Serving β} {e : RequestError}
    {log : List StoreFailure} (h : x.outcome = (.error e, log)) :
    (x >>= f).outcome = (.error e, log) :=
  run_bind_error h

end Serving

/-! ## The tree of a version -/

/-- Some of the names is that of a version of this precedence. -/
def Listed (names : List String) (v : Version) : Prop :=
  ∃ name ∈ names, ∃ w, NamesVersion name w ∧ w.equivalent v = true

theorem hasVersion_eq {s : ObjectStore} {names : List String} (h : s.referenceNames = .ok names)
    (v : Version) :
    Catalog.hasVersion s v = .ok ((names.filterMap versionOfRef?).any fun w => w.equivalent v) := by
  rw [Catalog.hasVersion, h]
  rfl

theorem any_equivalent_iff {names : List String} {v : Version} :
    ((names.filterMap versionOfRef?).any fun w => w.equivalent v) = true ↔ Listed names v := by
  rw [List.any_eq_true]
  constructor
  · rintro ⟨w, hmem, hw⟩
    obtain ⟨name, hname, hv⟩ := List.mem_filterMap.mp hmem
    exact ⟨name, hname, w, versionOfRef?_eq_some_iff.mp hv, hw⟩
  · rintro ⟨name, hname, w, hv, hw⟩
    exact ⟨w, List.mem_filterMap.mpr ⟨name, hname, versionOfRef?_eq_some_iff.mpr hv⟩, hw⟩

/-- The ways in which the question for the tree of a version ends. -/
inductive TreeAnswer (m : ServedModule) (s : ObjectStore) (v : Version) :
    Except RequestError TreeId × List StoreFailure → Prop where
  | unreadable {cause : StoreError} (names : s.referenceNames = .error cause) :
      TreeAnswer m s v (.error .internal, [⟨m, .store cause⟩])
  | unlisted {names : List String} (read : s.referenceNames = .ok names)
      (unlisted : ¬Listed names v) : TreeAnswer m s v (.error .notFound, [])
  | found {names : List String} {commit : Snapshot} (read : s.referenceNames = .ok names)
      (listed : Listed names v) (peeled : s.peel v.tagRef = .ok commit) :
      TreeAnswer m s v (.ok commit.tree, [])
  | absent {names : List String} {cause : StoreError} (read : s.referenceNames = .ok names)
      (listed : Listed names v) (peeled : s.peel v.tagRef = .error cause)
      (absent : cause.isRefNotFound = true) : TreeAnswer m s v (.error .notFound, [])
  | damaged {names : List String} {cause : StoreError} (read : s.referenceNames = .ok names)
      (listed : Listed names v) (peeled : s.peel v.tagRef = .error cause)
      (damaged : cause.isRefNotFound = false) :
      TreeAnswer m s v (.error .internal, [⟨m, .store cause⟩])

/-- A store that lists a version and has this tree for it. -/
structure HasTree (s : ObjectStore) (v : Version) (tree : TreeId) : Prop where
  listed : ∃ names, s.referenceNames = .ok names ∧ Listed names v
  peeled : ∃ commit, s.peel v.tagRef = .ok commit ∧ commit.tree = tree

theorem HasTree.unique {s : ObjectStore} {v : Version} {tree tree' : TreeId}
    (h : HasTree s v tree) (h' : HasTree s v tree') : tree = tree' := by
  obtain ⟨commit, hpeel, rfl⟩ := h.peeled
  obtain ⟨commit', hpeel', rfl⟩ := h'.peeled
  rw [hpeel] at hpeel'
  rw [Except.ok.inj hpeel']

/-- A store that lists its references, and where the tag of a version is absent if it leads to no
commit. -/
structure Readable (s : ObjectStore) (v : Version) : Prop where
  names : ∃ names, s.referenceNames = .ok names
  peeled {cause : StoreError} : s.peel v.tagRef = .error cause → cause.isRefNotFound = true

namespace ServedModule

theorem require_ok (m : ServedModule) {α : Type} (a : α) :
    (m.require (.ok a)).outcome = (.ok a, []) := rfl

theorem require_error (m : ServedModule) {α : Type} (cause : StoreError) :
    (m.require (.error cause : Except StoreError α)).outcome =
      (.error .internal, [⟨m, .store cause⟩]) := rfl

theorem checkListed_of_error (m : ServedModule) {s : ObjectStore} {cause : StoreError}
    (h : s.referenceNames = .error cause) (v : Version) :
    (m.checkListed s v).outcome = (.error .internal, [⟨m, .store cause⟩]) := by
  have hasked : Catalog.hasVersion s v = .error cause := by
    rw [Catalog.hasVersion, h]
    rfl
  rw [checkListed, hasked]
  exact Serving.outcome_bind_error (m.require_error cause)

theorem checkListed_of_listed (m : ServedModule) {s : ObjectStore} {names : List String}
    {v : Version} (h : s.referenceNames = .ok names) (hl : Listed names v) :
    (m.checkListed s v).outcome = (.ok (), []) := by
  rw [checkListed, hasVersion_eq h, Serving.outcome_bind_ok (m.require_ok _),
    any_equivalent_iff.mpr hl]
  rfl

theorem checkListed_of_unlisted (m : ServedModule) {s : ObjectStore} {names : List String}
    {v : Version} (h : s.referenceNames = .ok names) (hl : ¬Listed names v) :
    (m.checkListed s v).outcome = (.error .notFound, []) := by
  rw [checkListed, hasVersion_eq h, Serving.outcome_bind_ok (m.require_ok _),
    Bool.eq_false_iff.mpr (mt any_equivalent_iff.mp hl)]
  rfl

theorem treeOf_answer (m : ServedModule) (s : ObjectStore) (v : Version) :
    TreeAnswer m s v (m.treeOf s v).outcome := by
  rw [treeOf]
  cases hread : s.referenceNames with
  | error cause =>
    rw [Serving.outcome_bind_error (m.checkListed_of_error hread v)]
    exact .unreadable hread
  | ok names =>
    by_cases hl : Listed names v
    · rw [Serving.outcome_bind_ok (m.checkListed_of_listed hread hl), Catalog.resolveTree,
        Catalog.resolveCommit]
      cases hpeel : s.peel v.tagRef with
      | ok commit => exact .found hread hl hpeel
      | error cause =>
        cases hcause : cause.isRefNotFound with
        | true =>
          have hrun : (if cause.isRefNotFound then throw .notFound
              else m.require (.error cause) : Serving TreeId).outcome = (.error .notFound, []) := by
            rw [hcause]
            rfl
          exact (congrArg (TreeAnswer m s v) hrun).mpr (.absent hread hl hpeel hcause)
        | false =>
          have hrun : (if cause.isRefNotFound then throw .notFound
              else m.require (.error cause) : Serving TreeId).outcome =
                (.error .internal, [⟨m, .store cause⟩]) := by
            rw [hcause]
            rfl
          exact (congrArg (TreeAnswer m s v) hrun).mpr (.damaged hread hl hpeel hcause)
    · rw [Serving.outcome_bind_error (m.checkListed_of_unlisted hread hl)]
      exact .unlisted hread hl

theorem treeOf_ok_iff (m : ServedModule) {s : ObjectStore} {v : Version} {tree : TreeId} :
    (m.treeOf s v).outcome = (.ok tree, []) ↔ HasTree s v tree := by
  have answer := m.treeOf_answer s v
  generalize (m.treeOf s v).outcome = outcome at answer
  constructor
  · rintro rfl
    cases answer with
    | found read listed peeled => exact ⟨⟨_, read, listed⟩, _, peeled, rfl⟩
  · rintro ⟨⟨names, hread, hl⟩, commit, hpeel, rfl⟩
    cases answer with
    | unreadable read => rw [hread] at read; cases read
    | unlisted read unlisted =>
      rw [hread] at read
      cases read
      exact absurd hl unlisted
    | found _ _ peeled => rw [Except.ok.inj (hpeel.symm.trans peeled)]
    | absent _ _ peeled | damaged _ _ peeled => rw [hpeel] at peeled; cases peeled

/-- What succeeds logs nothing. -/
theorem treeOf_of_ok {m : ServedModule} {s : ObjectStore} {v : Version} {tree : TreeId}
    (h : (m.treeOf s v).outcome.1 = .ok tree) : (m.treeOf s v).outcome = (.ok tree, []) := by
  have answer := m.treeOf_answer s v
  generalize (m.treeOf s v).outcome = outcome at answer h
  cases answer with
  | found => exact congrArg (·, []) h
  | unreadable | unlisted | absent | damaged => cases h

theorem treeOf_of_readable {m : ServedModule} {s : ObjectStore} {v : Version}
    (hr : Readable s v) (h : ∀ tree, ¬HasTree s v tree) :
    (m.treeOf s v).outcome = (.error .notFound, []) := by
  have answer := m.treeOf_answer s v
  generalize (m.treeOf s v).outcome = outcome at answer
  obtain ⟨names, hread⟩ := hr.names
  cases answer with
  | unreadable read => rw [hread] at read; cases read
  | unlisted | absent => rfl
  | found read listed peeled => exact absurd ⟨⟨_, read, listed⟩, _, peeled, rfl⟩ (h _)
  | damaged _ _ peeled damaged => rw [hr.peeled peeled] at damaged; cases damaged

end ServedModule

/-! ## Opening a module -/

/-- A request names a configured module and a version, and the module's store opens. -/
structure Opens (r : Registry) (access : StoreAccess) (space name provider version : String)
    (m : ServedModule) (s : ObjectStore) (v : Version) : Prop where
  module : r.modules.lookup space name provider = some m.location
  coordinate : Coordinate.make space name provider = .ok m.coordinate
  version : Version.parse version = .ok v
  store : access m.location.gitDir = .ok s

namespace Registry

variable {r : Registry} {access : StoreAccess} {space name provider version : String}

theorem locate_of_some {location : Location} {coordinate : Coordinate}
    (hm : r.modules.lookup space name provider = some location)
    (hc : Coordinate.make space name provider = .ok coordinate) :
    (r.locate space name provider).outcome = (.ok ⟨coordinate, location⟩, []) := by
  rw [locate, hm, hc]
  rfl

theorem readVersion_of_ok {v : Version} (h : Version.parse version = .ok v) :
    (readVersion version).outcome = (.ok v, []) := by
  rw [readVersion, h]
  rfl

/-- What a request for one version does with the module's store. -/
def opening {α : Type} (r : Registry) (access : StoreAccess)
    (space name provider version : String) (f : ServedModule → ObjectStore → Version → Serving α) :
    Serving α := do
  let m ← r.locate space name provider
  let v ← readVersion version
  let s ← m.store access
  f m s v

theorem opening_of_opens {α : Type} {m : ServedModule} {s : ObjectStore} {v : Version}
    (h : Opens r access space name provider version m s v)
    (f : ServedModule → ObjectStore → Version → Serving α) :
    (r.opening access space name provider version f).outcome = (f m s v).outcome := by
  have hstore : (m.store access).outcome = (.ok s, []) := by
    rw [ServedModule.store, h.store]
    rfl
  rw [opening, Serving.outcome_bind_ok (locate_of_some h.module h.coordinate),
    Serving.outcome_bind_ok (readVersion_of_ok h.version), Serving.outcome_bind_ok hstore]

theorem opens_of_opening {α : Type} {f : ServedModule → ObjectStore → Version → Serving α} {a : α}
    (h : (r.opening access space name provider version f).outcome.1 = .ok a) :
    ∃ m s v, Opens r access space name provider version m s v := by
  cases hm : r.modules.lookup space name provider with
  | none =>
    rw [opening, locate, hm] at h
    cases h
  | some location =>
    cases hc : Coordinate.make space name provider with
    | error e =>
      rw [opening, locate, hm, hc] at h
      cases h
    | ok coordinate =>
      rw [opening, Serving.outcome_bind_ok (locate_of_some hm hc)] at h
      cases hv : Version.parse version with
      | error e =>
        rw [readVersion, hv] at h
        cases h
      | ok v =>
        rw [Serving.outcome_bind_ok (readVersion_of_ok hv)] at h
        cases hs : access location.gitDir with
        | error cause =>
          rw [ServedModule.store, hs,
            Serving.outcome_bind_error (ServedModule.require_error _ _)] at h
          cases h
        | ok s => exact ⟨⟨coordinate, location⟩, s, v, hm, hc, hv, hs⟩

theorem downloadTree_eq (r : Registry) (access : StoreAccess)
    (space name provider version : String) :
    r.downloadTree access space name provider version =
      r.opening access space name provider version fun m s v => m.treeOf s v := rfl

theorem checkDownload_eq (r : Registry) (access : StoreAccess)
    (space name provider version supplied : String) :
    r.checkDownload access space name provider version supplied =
      r.opening access space name provider version fun m s v => do
        m.checkTree s v supplied
        return (m, s, v) := rfl

end Registry

end TagRegistry
