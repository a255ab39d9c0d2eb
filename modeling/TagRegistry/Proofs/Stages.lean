import TagRegistry.Proofs.ConfiguredModules
import TagRegistry.Proofs.MissingReference

/-! Serving in two stages.

A request for one module first needs its module, then its version if it is about one, and then the
module's store. From there on only the store decides. Each lemma says how a stage ends from what it
finds. The request for all providers of a name goes through their modules and keeps what
succeeds. -/

namespace TagRegistry

/-! ## What a request asks for -/

namespace Operation

variable {α : Type}

/-- The coordinate of the one module that an operation is about. -/
def module? : Operation α → Option (α × α × α)
  | .discovery | .providers _ _ => none
  | .latest s n p | .everyVersion s n p | .oneVersion s n p _ | .location s n p _
  | .archive s n p _ _ => some (s, n, p)

/-- The version that an operation is about. -/
def version? : Operation α → Option α
  | .oneVersion _ _ _ v | .location _ _ _ v | .archive _ _ _ v _ => some v
  | _ => none

/-- Does the answer depend on the tree of the version? -/
def isDownload : Operation α → Bool
  | .location .. | .archive .. => true
  | _ => false

end Operation

/-- A coordinate is that of a configured module. -/
structure Located (r : Registry) (space name provider : String) (m : ServedModule) : Prop where
  module : r.modules.lookup space name provider = some m.location
  coordinate : Coordinate.make space name provider = .ok m.coordinate

/-- An operation is about a configured module, and if it is about a version, this is one. -/
structure Asks (r : Registry) (op : Operation String) (m : ServedModule) : Prop where
  located : ∃ space name provider, op.module? = some (space, name, provider) ∧
    Located r space name provider m
  parsed : ∀ text, op.version? = some text → ∃ v, Version.parse text = .ok v

/-! ## The two stages -/

namespace ServedModule

variable {m : ServedModule} {access : StoreAccess}

theorem store_of_ok {s : ObjectStore} (h : access m.location.gitDir = .ok s) :
    (m.store access).outcome = (.ok s, []) := by
  rw [store, h]
  rfl

theorem store_of_error {cause : StoreError} (h : access m.location.gitDir = .error cause) :
    (m.store access).outcome = (.error .internal, [⟨m, .store cause⟩]) := by
  rw [store, h]
  rfl

end ServedModule

/-- If there has to be a version, it is this one. -/
inductive Parsed : Option String → Option Version → Prop where
  | none : Parsed none none
  | some {text : String} {v : Version} (parsed : Version.parse text = .ok v) :
      Parsed (some text) (some v)

theorem Asks.exists_parsed {r : Registry} {op : Operation String} {m : ServedModule}
    (h : Asks r op m) : ∃ v?, Parsed op.version? v? := by
  cases htext : op.version? with
  | none => exact ⟨none, .none⟩
  | some text =>
    obtain ⟨v, hv⟩ := h.parsed text htext
    exact ⟨some v, .some hv⟩

theorem Operation.exists_module_of_version {α : Type} {op : Operation α} {text : α}
    (h : op.version? = some text) :
    ∃ space name provider, op.module? = some (space, name, provider) := by
  cases op with
  | oneVersion | location | archive => exact ⟨_, _, _, rfl⟩
  | discovery | providers | latest | everyVersion => cases h

namespace Registry

variable {r : Registry} {access : StoreAccess} {patience : Option Nat}
variable {op : Operation String} {space name provider : String}
variable {m : ServedModule} {s : ObjectStore}

/-- The first stage: the module, its store, and the version if there has to be one. -/
def reach (r : Registry) (access : StoreAccess) (space name provider : String)
    (text? : Option String) : Serving (ServedModule × ObjectStore × Option Version) := do
  let m ← r.locate space name provider
  let v? ← match text? with
    | none => pure none
    | some text => some <$> readVersion text
  let s ← m.store access
  return (m, s, v?)

/-- The second stage. -/
def finish (r : Registry) (patience : Option Nat) (m : ServedModule) (s : ObjectStore) :
    Operation String → Option Version → Serving Response
  | .latest _ _ _, none => do
    match ← m.latest? s with
    | some summary => return .json summary.toJson
    | none => throw .notFound
  | .everyVersion _ _ _, none => do
    let versions ← m.require (Catalog.listVersions s)
    return .json (VersionList.of r.hostname.text m.coordinate versions).toJson
  | .oneVersion _ _ _ _, some v => do
    m.checkListed s v
    return .json (ModuleSummary.of m.coordinate v).toJson
  | .location _ _ _ _, some v => do
    let tree ← m.treeOf s v
    return .sized 204 [("content-type", "text/plain"), ("x-terraform-get", archiveLink tree)] []
  | .archive _ _ _ _ supplied, some v => do
    m.checkTree s v supplied
    let (response, log) := archiveResponse m s v patience
    log.forM Serving.log
    return response
  | _, _ => throw .notFound

theorem serve_eq_reach (hop : op.module? = some (space, name, provider)) :
    r.serve access patience op =
      r.reach access space name provider op.version? >>= fun (m, s, v?) =>
        r.finish patience m s op v? := by
  cases op with
  | discovery | providers => cases hop
  | latest =>
    cases hop
    simp only [serve, reach, finish, getLatest, Operation.version?, bind_assoc, pure_bind]
    refine bind_congr fun m => bind_congr fun s => bind_congr fun summary? => ?_
    cases summary? <;> rfl
  | everyVersion | oneVersion | location | archive =>
    cases hop
    simp [serve, reach, finish, listVersions, getVersion, downloadTree, checkDownload,
      Operation.version?]

/-! ## The first stage -/

theorem locate_of_located (h : Located r space name provider m) :
    (r.locate space name provider).outcome = (.ok m, []) :=
  locate_of_some h.module h.coordinate

theorem locate_of_not_located (h : ∀ m, ¬Located r space name provider m) :
    (r.locate space name provider).outcome = (.error .notFound, []) := by
  unfold locate
  split
  · next location coordinate hm hc => exact absurd ⟨hm, hc⟩ (h ⟨coordinate, location⟩)
  · rfl

theorem readVersion_of_malformed {text : String} (h : ∀ v, Version.parse text ≠ .ok v) :
    (readVersion text).outcome = (.error .notFound, []) := by
  unfold readVersion
  split
  · next v hv => exact absurd hv (h v)
  · rfl

theorem reach_of_malformed {text : String} (h : ∀ v, Version.parse text ≠ .ok v) :
    (r.reach access space name provider (some text)).outcome = (.error .notFound, []) := by
  by_cases hm : ∃ m, Located r space name provider m
  · obtain ⟨m, hm⟩ := hm
    rw [reach, Serving.outcome_bind_ok (locate_of_located hm)]
    exact Serving.outcome_bind_error (Serving.outcome_bind_error (readVersion_of_malformed h))
  · exact Serving.outcome_bind_error (locate_of_not_located (not_exists.mp hm))

/-- From a configured module and a version that is one, the first stage goes on to the store. -/
theorem reach_of_located {text? : Option String} {v? : Option Version}
    (hm : Located r space name provider m) (hv : Parsed text? v?) :
    (r.reach access space name provider text?).outcome =
      (m.store access >>= fun s => pure (m, s, v?)).outcome := by
  rw [reach, Serving.outcome_bind_ok (locate_of_located hm)]
  cases hv with
  | none => rfl
  | some parsed =>
    have hread := Serving.outcome_bind_ok (f := fun v => pure (some v)) (readVersion_of_ok parsed)
    exact Serving.outcome_bind_ok hread

theorem serve_of_unopened {cause : StoreError} (hasks : Asks r op m)
    (h : access m.location.gitDir = .error cause) :
    (r.serve access patience op).outcome = (.error .internal, [⟨m, .store cause⟩]) := by
  obtain ⟨space, name, provider, hop, hm⟩ := hasks.located
  obtain ⟨v?, hv⟩ := hasks.exists_parsed
  rw [serve_eq_reach hop]
  refine Serving.outcome_bind_error ?_
  rw [reach_of_located hm hv]
  exact Serving.outcome_bind_error (ServedModule.store_of_error h)

/-- Once the store is open, the second stage decides. -/
theorem serve_of_opened (patience : Option Nat) {v? : Option Version} (hasks : Asks r op m)
    (hv : Parsed op.version? v?) (h : access m.location.gitDir = .ok s) :
    (r.serve access patience op).outcome = (r.finish patience m s op v?).outcome := by
  obtain ⟨space, name, provider, hop, hm⟩ := hasks.located
  have hreach :
      (r.reach access space name provider op.version?).outcome = (.ok (m, s, v?), []) := by
    rw [reach_of_located hm hv, Serving.outcome_bind_ok (ServedModule.store_of_ok h)]
    rfl
  rw [serve_eq_reach hop, Serving.outcome_bind_ok hreach]

end Registry

/-! ## The second stage -/

namespace Catalog

theorem listVersions_of_error {s : ObjectStore} {cause : StoreError}
    (h : s.referenceNames = .error cause) : listVersions s = .error cause := by
  rw [listVersions, h]
  rfl

theorem ofNames_eq_nil_iff {names : List String} :
    ofNames names = [] ↔ ∀ name ∈ names, ∀ v, ¬NamesVersion name v := by
  constructor
  · intro h name hname v hv
    obtain ⟨w, hw, -⟩ := exists_mem_ofNames
      (List.mem_filterMap.mpr ⟨name, hname, versionOfRef?_eq_some_iff.mpr hv⟩)
    rw [h] at hw
    cases hw
  · intro h
    rw [List.eq_nil_iff_forall_not_mem]
    intro w hw
    obtain ⟨before, name, after, rfl, hname, -⟩ := exists_first_name (find?_of_mem_ofNames hw)
    exact h name (by simp) w hname

end Catalog

namespace ServedModule

variable {m : ServedModule} {s : ObjectStore} {v : Version} {names : List String}

theorem latest?_of_unread {cause : StoreError} (h : s.referenceNames = .error cause) :
    (m.latest? s).outcome = (.error .internal, [⟨m, .store cause⟩]) := by
  have hlatest : Catalog.latestVersion? s = .error cause := by
    rw [Catalog.latestVersion?, Catalog.listVersions_of_error h]
    rfl
  rw [latest?, hlatest]
  exact Serving.outcome_bind_error (m.require_error cause)

theorem latest?_of_names (h : s.referenceNames = .ok names) :
    (m.latest? s).outcome =
      (.ok ((Catalog.ofNames names).head?.map (ModuleSummary.of m.coordinate)), []) := by
  have hlatest : Catalog.latestVersion? s = .ok (Catalog.ofNames names).head? := by
    rw [Catalog.latestVersion?, Catalog.listVersions_eq h]
    rfl
  rw [latest?, hlatest, Serving.outcome_bind_ok (m.require_ok _)]
  rfl

theorem treeOf_of_unread {cause : StoreError} (h : s.referenceNames = .error cause) :
    (m.treeOf s v).outcome = (.error .internal, [⟨m, .store cause⟩]) :=
  Serving.outcome_bind_error (m.checkListed_of_error h v)

theorem treeOf_of_unlisted (h : s.referenceNames = .ok names) (hl : ¬Listed names v) :
    (m.treeOf s v).outcome = (.error .notFound, []) :=
  Serving.outcome_bind_error (m.checkListed_of_unlisted h hl)

end ServedModule

namespace Serving

theorem run_forM_log (failures log : List StoreFailure) :
    (failures.forM Serving.log).run.run log = (.ok (), log ++ failures) := by
  induction failures generalizing log with
  | nil =>
    rw [List.append_nil]
    rfl
  | cons failure failures ih =>
    have hrest := ih (log ++ [failure])
    rw [List.append_assoc] at hrest
    exact hrest

theorem outcome_forM_log {α : Type} (failures : List StoreFailure) (a : α) :
    (failures.forM Serving.log >>= fun _ => (pure a : Serving α)).outcome = (.ok a, failures) := by
  have hlog := run_forM_log failures []
  exact (run_bind_ok hlog).trans rfl

end Serving

namespace Registry

variable {r : Registry} {access : StoreAccess} {patience : Option Nat}
variable {op : Operation String} {space name provider version supplied : String}
variable {m : ServedModule} {s : ObjectStore} {v : Version} {names : List String}

theorem finish_of_treeless {e : RequestError} {log : List StoreFailure}
    (hop : op.isDownload = true) (h : (m.treeOf s v).outcome = (.error e, log)) :
    (r.finish patience m s op (some v)).outcome = (.error e, log) := by
  cases op with
  | discovery | providers | latest | everyVersion | oneVersion => cases hop
  | location => exact Serving.outcome_bind_error h
  | archive => exact Serving.outcome_bind_error (Serving.outcome_bind_error h)

theorem finish_of_unread {v? : Option Version} {cause : StoreError} (hop : op.module?.isSome = true)
    (hv : Parsed op.version? v?) (h : s.referenceNames = .error cause) :
    (r.finish patience m s op v?).outcome = (.error .internal, [⟨m, .store cause⟩]) := by
  cases op with
  | discovery | providers => cases hop
  | latest =>
    cases hv
    exact Serving.outcome_bind_error (ServedModule.latest?_of_unread h)
  | everyVersion =>
    cases hv
    refine Serving.outcome_bind_error ?_
    rw [Catalog.listVersions_of_error h]
    exact m.require_error cause
  | oneVersion =>
    cases hv
    exact Serving.outcome_bind_error (m.checkListed_of_error h _)
  | location | archive =>
    cases hv
    exact finish_of_treeless rfl (ServedModule.treeOf_of_unread h)

theorem finish_of_unlisted {text : String} (hop : op.version? = some text)
    (h : s.referenceNames = .ok names) (hl : ¬Listed names v) :
    (r.finish patience m s op (some v)).outcome = (.error .notFound, []) := by
  cases op with
  | discovery | providers | latest | everyVersion => cases hop
  | oneVersion => exact Serving.outcome_bind_error (m.checkListed_of_unlisted h hl)
  | location | archive => exact finish_of_treeless rfl (ServedModule.treeOf_of_unlisted h hl)

theorem finish_latest (h : s.referenceNames = .ok names) :
    (r.finish patience m s (.latest space name provider) none).outcome =
      match (Catalog.ofNames names).head? with
      | some v => (.ok (.json (ModuleSummary.of m.coordinate v).toJson), [])
      | none => (.error .notFound, []) := by
  rw [finish, Serving.outcome_bind_ok (ServedModule.latest?_of_names h)]
  cases (Catalog.ofNames names).head? <;> rfl

theorem finish_everyVersion (h : s.referenceNames = .ok names) :
    (r.finish patience m s (.everyVersion space name provider) none).outcome =
      (.ok (.json (VersionList.of r.hostname.text m.coordinate (Catalog.ofNames names)).toJson),
        []) := by
  rw [finish, Catalog.listVersions_eq h, Serving.outcome_bind_ok (m.require_ok _)]
  rfl

theorem finish_oneVersion (h : s.referenceNames = .ok names) (hl : Listed names v) :
    (r.finish patience m s (.oneVersion space name provider version) (some v)).outcome =
      (.ok (.json (ModuleSummary.of m.coordinate v).toJson), []) := by
  rw [finish, Serving.outcome_bind_ok (m.checkListed_of_listed h hl)]
  rfl

theorem finish_location {tree : TreeId} (h : HasTree s v tree) :
    (r.finish patience m s (.location space name provider version) (some v)).outcome =
      (.ok (.sized 204 [("content-type", "text/plain"), ("x-terraform-get", archiveLink tree)] []),
        []) := by
  rw [finish, Serving.outcome_bind_ok (m.treeOf_ok_iff.mpr h)]
  rfl

theorem finish_archive {tree : TreeId} (h : HasTree s v tree) (hx : supplied ∈ tree.spellings) :
    (r.finish patience m s (.archive space name provider version supplied) (some v)).outcome =
      (.ok (archiveResponse m s v patience).1, (archiveResponse m s v patience).2) := by
  have hcheck := m.checkTree_of_hasTree h supplied
  rw [if_pos hx] at hcheck
  rw [finish, Serving.outcome_bind_ok hcheck]
  exact Serving.outcome_forM_log _ _

theorem finish_archive_of_other {tree : TreeId} (h : HasTree s v tree)
    (hx : supplied ∉ tree.spellings) :
    (r.finish patience m s (.archive space name provider version supplied) (some v)).outcome =
      (.error .notFound, []) := by
  have hcheck := m.checkTree_of_hasTree h supplied
  rw [if_neg hx] at hcheck
  exact Serving.outcome_bind_error hcheck

end Registry

/-! ## Several providers -/

namespace Serving

variable {α β ι : Type}

/-- What is logged comes behind what is there, and does not depend on it. -/
def Appends (x : Serving α) : Prop := ∀ log, x.run.run log = (x.outcome.1, log ++ x.outcome.2)

theorem appends_pure (a : α) : Appends (pure a) := by
  intro log
  change (Except.ok a, log) = (Except.ok a, log ++ [])
  rw [List.append_nil]

theorem appends_require (m : ServedModule) (answer : Except StoreError α) :
    Appends (m.require answer) := by
  cases answer with
  | ok a => exact appends_pure a
  | error cause => exact fun log => rfl

theorem appends_bind {x : Serving α} {f : α → Serving β} (hx : Appends x)
    (hf : ∀ a, Appends (f a)) : Appends (x >>= f) := by
  intro log
  cases houtcome : x.outcome with
  | mk result own =>
    have hrun (log : List StoreFailure) : x.run.run log = (result, log ++ own) := by
      rw [hx log, houtcome]
    cases result with
    | error e =>
      have hbind : (x >>= f).outcome = (.error e, own) := run_bind_error (hrun [])
      rw [run_bind_error (hrun log), hbind]
    | ok a =>
      have hbind : (x >>= f).outcome = ((f a).outcome.1, own ++ (f a).outcome.2) :=
        (run_bind_ok (hrun [])).trans (hf a own)
      rw [run_bind_ok (hrun log), hf a, hbind, List.append_assoc]

theorem run_attempt? {x : Serving α} (hx : Appends x) (log : List StoreFailure) :
    (attempt? x).run.run log = (.ok x.outcome.1.toOption, log ++ x.outcome.2) := by
  have hrun := hx log
  cases houtcome : x.outcome with
  | mk result own =>
    rw [houtcome] at hrun
    unfold attempt?
    cases result with
    | ok a | error e =>
      simp only [ExceptT.run, StateT.run] at hrun ⊢
      simp only [hrun]
      rfl

/-- Going through a list with attempts never fails. -/
theorem run_mapM_attempt? {f : ι → Serving α} (hf : ∀ i, Appends (f i)) (items : List ι)
    (log : List StoreFailure) :
    (items.mapM fun i => attempt? (f i)).run.run log =
      (.ok (items.map fun i => (f i).outcome.1.toOption),
        log ++ items.flatMap fun i => (f i).outcome.2) := by
  induction items generalizing log with
  | nil => simp; rfl
  | cons i items ih =>
    rw [List.mapM_cons, run_bind_ok (run_attempt? (hf i) log), run_bind_ok (ih _)]
    simp
    rfl

end Serving

/-- The latest version of a module, if its store can be read. -/
def ServedModule.newest? (m : ServedModule) (access : StoreAccess) :
    Serving (Option ModuleSummary) := do
  m.latest? (← m.store access)

theorem ServedModule.appends_newest? (m : ServedModule) (access : StoreAccess) :
    Serving.Appends (m.newest? access) :=
  Serving.appends_bind (Serving.appends_require m _) fun _ =>
    Serving.appends_bind (Serving.appends_require m _) fun _ => Serving.appends_pure _

namespace Registry

variable {r : Registry} {space name : String} {providers : Table String Location}

/-- The modules of a table of providers. -/
def modulesIn (space name : String) (providers : Table String Location) : List ServedModule :=
  providers.filterMap fun (provider, location) =>
    (Coordinate.make space name provider).toOption.map fun c => ⟨c, location⟩

/-- The providers of a configured name are listed whatever their stores do. -/
theorem listProviders_of_some (access : StoreAccess)
    (h : r.modules.providers? space name = some providers) :
    (r.listProviders access space name).outcome =
      (.ok ⟨(modulesIn space name providers).filterMap fun m =>
          (m.newest? access).outcome.1.toOption.join, none⟩,
        (modulesIn space name providers).flatMap fun m => (m.newest? access).outcome.2) := by
  have hmodules :
      (r.modulesOf space name).outcome = (.ok (modulesIn space name providers), []) := by
    rw [modulesOf, h]
    rfl
  have hall := Serving.run_mapM_attempt? (fun m => m.appends_newest? access)
    (modulesIn space name providers) []
  rw [listProviders, Serving.outcome_bind_ok hmodules]
  refine (Serving.run_bind_ok hall).trans ?_
  rw [List.nil_append, List.filterMap_map]
  rfl

theorem listProviders_of_none (access : StoreAccess)
    (h : r.modules.providers? space name = none) :
    (r.listProviders access space name).outcome = (.error .notFound, []) := by
  have hmodules : (r.modulesOf space name).outcome = (.error .notFound, []) := by
    rw [modulesOf, h]
    rfl
  exact Serving.outcome_bind_error hmodules

end Registry

end TagRegistry
