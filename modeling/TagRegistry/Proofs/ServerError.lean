import TagRegistry.Proofs.Outcomes
import TagRegistry.Proofs.TagNames

/-! Requests that end with a server error although nothing is wrong with a store.

A registry is healthy if all its stores open and list their references, and every reference leads to
a commit. Then a server error comes from one of two texts that are accepted and lead to nothing that
can be answered with: a listed version of which the tag has no legal name, and a coordinate that
does not fit into a header. -/

namespace TagRegistry

open Bytes (ascii)

/-! ## Healthy registries -/

/-- A store lists its references, and each of them leads to a commit. -/
structure Sound (s : ObjectStore) (names : List String) : Prop where
  read : s.referenceNames = .ok names
  leads : ∀ name ∈ names, ∃ commit, s.peel name = .ok commit

/-- What a store says of a version's tag that is none of its references: an illegal name is refused,
and a legal one is not found. No store that is opened from a disk says this of every name. A name
with a step of more than 255 octets is legal, but no disk can hold it, and to look for it there is a
failure. -/
structure LooksUp (s : ObjectStore) (names : List String) : Prop where
  illegal : ∀ v : Version, RefName.normalize? (Utf8.encode v.tagRef) = none →
    ∃ cause, s.peel v.tagRef = .error cause ∧ cause.isRefNotFound = false
  absent : ∀ v : Version, RefName.normalize? (Utf8.encode v.tagRef) ≠ none → v.tagRef ∉ names →
    ∃ cause, s.peel v.tagRef = .error cause ∧ cause.isRefNotFound = true

/-- Every configured module has a store that opens and where nothing is damaged. -/
def Registry.Healthy (r : Registry) (access : StoreAccess) : Prop :=
  ∀ space name provider location, r.modules.lookup space name provider = some location →
    ∃ s names, access location.gitDir = .ok s ∧ Sound s names ∧ LooksUp s names

section Healthy

variable {r : Registry} {access : StoreAccess} {op : Operation String} {m : ServedModule}
variable {s : ObjectStore} {names : List String} {v : Version}

theorem Registry.Healthy.store (hr : r.Healthy access) (h : Asks r op m) :
    ∃ s names, access m.location.gitDir = .ok s ∧ Sound s names ∧ LooksUp s names := by
  obtain ⟨space, name, provider, -, hm⟩ := h.located
  exact hr space name provider m.location hm.module

/-- What a request reads in a healthy registry is sound. -/
theorem Registry.Healthy.reads (hr : r.Healthy access) (h : Reads r access op m s names) :
    Sound s names ∧ LooksUp s names := by
  obtain ⟨s', names', hopen, hsound, hlooks⟩ := hr.store h.asks
  rw [h.opened] at hopen
  cases hopen
  have hnames := hsound.read
  rw [h.names] at hnames
  cases hnames
  exact ⟨hsound, hlooks⟩

end Healthy

/-! ## The two kinds of server errors -/

/-- A request for a listed version whose tag has no legal name, or for an archive whose name does
not fit into a header. -/
inductive ServerError (r : Registry) (access : StoreAccess) (op : Operation String) : Prop where
  | unnameable {m : ServedModule} {s : ObjectStore} {names : List String} {v : Version}
      (download : op.isDownload = true) (reads : ReadsVersion r access op m s names v)
      (listed : Listed names v) (illegal : RefName.normalize? (Utf8.encode v.tagRef) = none) :
      ServerError r access op
  | header {space name provider version supplied : String} {m : ServedModule} {s : ObjectStore}
      {v : Version} (asked : op = .archive space name provider version supplied)
      (opens : Opens r access space name provider version m s v) (accepted : Accepted s v supplied)
      (unfit : Registry.isHeaderText (m.coordinate.archiveFileName v) = false) :
      ServerError r access op

/-- What a bind that succeeds says of its two parts. -/
theorem Serving.exists_of_bind_ok {α β : Type} {x : Serving α} {f : α → Serving β} {b : β}
    (h : (x >>= f).outcome.1 = .ok b) :
    ∃ a log, x.outcome = (.ok a, log) ∧ ((f a).run.run log).1 = .ok b := by
  cases hx : x.outcome with
  | mk result log =>
    cases result with
    | error e =>
      rw [outcome_bind_error hx] at h
      cases h
    | ok a =>
      refine ⟨a, log, rfl, ?_⟩
      rw [← run_bind_ok hx]
      exact h

section Served

variable {r : Registry} {access : StoreAccess} {patience : Option Nat}

theorem Opens.asks {space name provider version : String} {m : ServedModule} {s : ObjectStore}
    {v : Version} (h : Opens r access space name provider version m s v) {op : Operation String}
    (hmodule : op.module? = some (space, name, provider)) (hversion : op.version? = some version) :
    Asks r op m where
  located := ⟨space, name, provider, hmodule, h.module, h.coordinate⟩
  parsed text htext := by
    rw [hversion] at htext
    cases htext
    exact ⟨v, h.version⟩

theorem checkDownload_ok {space name provider version supplied : String} {m : ServedModule}
    {s : ObjectStore} {v : Version} {log : List StoreFailure}
    (h : (r.checkDownload access space name provider version supplied).outcome =
      (.ok (m, s, v), log)) :
    Opens r access space name provider version m s v ∧ Accepted s v supplied := by
  rw [Registry.checkDownload_eq] at h
  obtain ⟨m', s', v', hopens⟩ := Registry.opens_of_opening (congrArg Prod.fst h)
  rw [Registry.opening_of_opens hopens] at h
  obtain ⟨_, log', hcheck, hrest⟩ := Serving.exists_of_bind_ok (congrArg Prod.fst h)
  cases hrest
  exact ⟨hopens, m.checkTree_ok_iff.mp (congrArg Prod.fst hcheck)⟩

/-- A request for an archive under an accepted identifier is answered with it. -/
theorem serve_archive (patience : Option Nat) {space name provider version supplied : String}
    {m : ServedModule} {s : ObjectStore} {v : Version}
    (opens : Opens r access space name provider version m s v) (accepted : Accepted s v supplied) :
    (r.serve access patience (.archive space name provider version supplied)).outcome =
      (.ok (Registry.archiveResponse m s v patience).1,
        (Registry.archiveResponse m s v patience).2) := by
  obtain ⟨tree, htree, hspelled⟩ := accepted
  have hasks : Asks r (.archive space name provider version supplied) m := opens.asks rfl rfl
  rw [Registry.serve_of_opened patience hasks (.some opens.version) opens.store,
    Registry.finish_archive htree hspelled]

theorem status_archiveResponse_iff {m : ServedModule} {s : ObjectStore} {v : Version} :
    (Registry.archiveResponse m s v patience).1.status = 500 ↔
      Registry.isHeaderText (m.coordinate.archiveFileName v) = false := by
  unfold Registry.archiveResponse
  simp only []
  split
  · next hfits => simp [hfits]
  · next hunfit => exact iff_of_true rfl (Bool.eq_false_iff.mpr hunfit)

/-- Of the answers to served requests, only that to a request for an archive can be a server
error. -/
theorem serverError_of_served {op : Operation String} {response : Response}
    (h : (r.serve access patience op).outcome.1 = .ok response) (hstatus : response.status = 500) :
    ServerError r access op := by
  cases op with
  | discovery =>
    cases h
    cases hstatus
  | providers | latest | everyVersion | oneVersion | location =>
    obtain ⟨a, log, -, hrest⟩ := Serving.exists_of_bind_ok h
    cases hrest
    cases hstatus
  | archive space name provider version supplied =>
    obtain ⟨⟨m, s, v⟩, log, hcheck, -⟩ := Serving.exists_of_bind_ok h
    obtain ⟨hopens, haccepted⟩ := checkDownload_ok hcheck
    rw [serve_archive patience hopens haccepted] at h
    rw [← Except.ok.inj h] at hstatus
    exact .header rfl hopens haccepted (status_archiveResponse_iff.mp hstatus)

/-- In a healthy registry, a request that is refused with a server error is one for a version whose
tag has no legal name. -/
theorem serverError_of_refused (hr : r.Healthy access) {op : Operation String}
    {log : List StoreFailure} (h : Refused r access op .internal log) :
    ServerError r access op := by
  cases h with
  | unopened asks unopened =>
    obtain ⟨s, names, hopen, -⟩ := hr.store asks
    cases unopened.symm.trans hopen
  | unread asks opened unread =>
    obtain ⟨s, names, hopen, hsound, -⟩ := hr.store asks
    cases opened.symm.trans hopen
    cases unread.symm.trans hsound.read
  | @damaged _ m s names v cause download reads listed peeled damaged =>
    obtain ⟨hsound, hlooks⟩ := hr.reads reads.reads
    refine .unnameable download reads listed ?_
    by_cases hlegal : RefName.normalize? (Utf8.encode v.tagRef) = none
    · exact hlegal
    · have hother : v.tagRef ∉ names := by
        intro hmem
        obtain ⟨commit, hcommit⟩ := hsound.leads _ hmem
        cases peeled.symm.trans hcommit
      obtain ⟨cause', hcause, habsent⟩ := hlooks.absent v hlegal hother
      cases peeled.symm.trans hcause
      rw [damaged] at habsent
      cases habsent

theorem status_eq_500_iff (hr : r.Healthy access) {op : Operation String} :
    (r.reply access patience op).1.status = 500 ↔ ServerError r access op := by
  constructor
  · intro hstatus
    rcases refused_or_served patience op with ⟨e, log, hrefused⟩ | ⟨response, hserved⟩
    · rw [Registry.reply_of_error (hrefused.outcome patience)] at hstatus
      cases e with
      | notFound => cases hstatus
      | internal => exact serverError_of_refused hr hrefused
    · have houtcome : (r.serve access patience op).outcome =
          (.ok response, (r.serve access patience op).outcome.2) := Prod.ext hserved rfl
      rw [Registry.reply_of_ok houtcome] at hstatus
      exact serverError_of_served hserved hstatus
  · intro h
    cases h with
    | @unnameable m s names v download reads listed illegal =>
      obtain ⟨cause, hcause, hdamaged⟩ := (hr.reads reads.reads).2.illegal v illegal
      have hrefused : Refused r access op .internal [⟨m, .store cause⟩] :=
        .damaged download reads listed hcause hdamaged
      rw [Registry.reply_of_error (hrefused.outcome patience)]
      rfl
    | @header space name provider version supplied m s v asked opens accepted unfit =>
      have hstatus : (Registry.archiveResponse m s v patience).1.status = 500 :=
        status_archiveResponse_iff.mpr unfit
      rw [asked, Registry.reply_of_ok (serve_archive patience opens accepted), hstatus]

/-- A version without a tag of its own is not found, unless it is listed and its tag has no legal
name. -/
theorem reply_of_untagged (hr : r.Healthy access) {op : Operation String} {m : ServedModule}
    {s : ObjectStore} {names : List String} {v : Version}
    (reads : ReadsVersion r access op m s names v) (download : op.isDownload = true)
    (untagged : v.tagRef ∉ names)
    (hlegal : Listed names v → RefName.normalize? (Utf8.encode v.tagRef) ≠ none) :
    r.reply access patience op = (.ofError .notFound, []) := by
  have hrefused : Refused r access op .notFound [] := by
    by_cases hlisted : Listed names v
    · obtain ⟨cause, hcause, habsent⟩ :=
        (hr.reads reads.reads).2.absent v (hlegal hlisted) untagged
      exact .absent download reads hlisted hcause habsent
    · exact .unlisted reads hlisted
  exact Registry.reply_of_error (hrefused.outcome patience)

theorem Registry.respond_of_asked {target path : Bytes} {raw : Operation Bytes}
    {op : Operation String} (hpath : Operation.pathOf? target = some path)
    (hraw : Operation.ofPath? path = some raw) (hop : raw.decode = .ok op) :
    r.respond access "GET" target = r.reply access none op := by
  simp only [respond, hpath, respondAt, hraw, if_true]
  exact answer_of_decode hop

/-- A target that names no operation is the client's fault. -/
theorem Registry.status_respond_of_unasked {target : Bytes}
    (h : ¬∃ path raw op, Operation.pathOf? target = some path ∧
      Operation.ofPath? path = some raw ∧ raw.decode = .ok op) :
    (r.respond access "GET" target).1.status ≠ 500 := by
  rw [respond]
  cases hpath : Operation.pathOf? target with
  | none => simp [Response.ofError, Response.sized, RequestError.status]
  | some path =>
    simp only [respondAt]
    cases hraw : Operation.ofPath? path with
    | none => simp [Response.unrouted]
    | some raw =>
      simp only [if_true, answer]
      cases hop : raw.decode with
      | error parameter => simp [parameterRefused, Response.plain, Response.sized]
      | ok op => exact absurd ⟨path, raw, op, hpath, hraw, hop⟩ h

/-- A server error is the answer to an operation that the path of a target names. -/
theorem status_respond_iff {target : Bytes} :
    (r.respond access "GET" target).1.status = 500 ↔
      ∃ path raw op, Operation.pathOf? target = some path ∧ Operation.ofPath? path = some raw ∧
        raw.decode = .ok op ∧ (r.reply access none op).1.status = 500 := by
  constructor
  · intro hstatus
    by_cases h : ∃ path raw op, Operation.pathOf? target = some path ∧
        Operation.ofPath? path = some raw ∧ raw.decode = .ok op
    · obtain ⟨path, raw, op, hpath, hraw, hop⟩ := h
      rw [Registry.respond_of_asked hpath hraw hop] at hstatus
      exact ⟨path, raw, op, hpath, hraw, hop, hstatus⟩
    · exact absurd hstatus (Registry.status_respond_of_unasked h)
  · rintro ⟨path, raw, op, hpath, hraw, hop, hstatus⟩
    rw [Registry.respond_of_asked hpath hraw hop]
    exact hstatus

end Served

/-- In a healthy registry a server error is the answer exactly to a request for a listed version
whose tag has no legal name, and to one for an archive whose name does not fit into a header. The
text of such a version ends with `.lock` or is too long, and such a name is due to the coordinate.
Every other version without a tag of its own is not found. -/
theorem server_errors {r : Registry} {access : StoreAccess} (hr : r.Healthy access) :
    (∀ target, (r.respond access "GET" target).1.status = 500 ↔
      ∃ path raw op, Operation.pathOf? target = some path ∧ Operation.ofPath? path = some raw ∧
        raw.decode = .ok op ∧ ServerError r access op) ∧
    (∀ v : Version, RefName.normalize? (Utf8.encode v.tagRef) = none ↔
      ".lock".toList <:+ v.render.toList ∨ 1012 < v.render.length) ∧
    (∀ (c : Coordinate) (v : Version), Registry.isHeaderText (c.archiveFileName v) =
      (Registry.isHeaderText c.space && Registry.isHeaderText c.name &&
        Registry.isHeaderText c.provider)) ∧
    ∀ (patience : Option Nat) (op : Operation String) (m : ServedModule) (s : ObjectStore)
      (names : List String) (v : Version), ReadsVersion r access op m s names v →
      op.isDownload = true → v.tagRef ∉ names →
      (Listed names v → RefName.normalize? (Utf8.encode v.tagRef) ≠ none) →
        r.reply access patience op = (.ofError .notFound, []) := by
  refine ⟨fun target => ?_, Version.normalize?_tagRef_eq_none_iff,
    Coordinate.isHeaderText_archiveFileName, ?_⟩
  · simp only [status_respond_iff, status_eq_500_iff hr]
  · intro patience op m s names v reads download untagged hlegal
    exact reply_of_untagged hr reads download untagged hlegal

/-! ## Repositories -/

namespace Repository

variable {repo : Repository} {names : List String}

theorem view_peel (name : String) : repo.view.peel name = repo.peel name := rfl

/-- A repository that finds no tag of a version but the ones it lists. -/
theorem looksUp_view (h : ∀ v : Version, v.tagRef ∉ names →
    repo.lookupRef (Utf8.encode v.tagRef) = .ok none) : LooksUp repo.view names where
  illegal v hillegal := by
    refine ⟨.damaged, ?_, rfl⟩
    rw [view_peel, peel, hillegal]
  absent v hlegal hother := by
    have hnormal : RefName.normalize? (Utf8.encode v.tagRef) = some (Utf8.encode v.tagRef) := by
      rw [Version.normalize?_tagRef] at hlegal ⊢
      split at hlegal
      · exact absurd rfl hlegal
      · next hrules => exact if_neg hrules
    have hmissing : repo.findCommit (Utf8.encode v.tagRef) = .ok none :=
      findCommit_none_iff.mpr (.inl (h v hother))
    have habsent : Repository.absent v.tagRef = .refNotFound v.tagRef :=
      absent_eq_refNotFound_iff.mpr ⟨rfl, tagRef_below_refs v⟩
    refine ⟨.refNotFound v.tagRef, ?_, rfl⟩
    rw [view_peel, peel_of_legal hnormal, hmissing, ← habsent]

/-- So does every repository that is given by tables without a loose file that is no reference. -/
theorem looksUp_ofTables {objects : List (ObjectId × StoredObject)} {loose : Table Bytes Bytes}
    {packed : Table Bytes ObjectId} (hvalid : ∀ file ∈ loose, isReference file = true)
    (hnames : (ofTables objects loose packed).referenceNames = .ok names) :
    LooksUp (ofTables objects loose packed).view names := by
  refine looksUp_view fun v hother => ?_
  rw [referenceNames] at hnames
  cases hnames
  have hbelow : (ascii "refs/").isPrefixOf (Utf8.encode v.tagRef) = true := by
    rw [v.encode_tagRef]
    rfl
  have hunlisted : Utf8.encode v.tagRef ∉ _ :=
    fun hmem => hother (List.mem_filterMap.mpr ⟨_, hmem, v.decode?_encode_tagRef⟩)
  rw [List.mem_append, not_or] at hunlisted
  obtain ⟨hnotLoose, hnotPacked⟩ := hunlisted
  have hloose : loose.lookup (Utf8.encode v.tagRef) = none := by
    refine Table.lookup_eq_none_iff.mpr fun hkey => hnotLoose ?_
    obtain ⟨file, hfile, hname⟩ := List.mem_map.mp hkey
    rw [← hname] at hbelow
    exact List.mem_map.mpr ⟨file, List.mem_filter.mpr ⟨List.mem_filter.mpr ⟨hfile, hbelow⟩,
      hvalid file hfile⟩, hname⟩
  have hpacked : packed.lookup (Utf8.encode v.tagRef) = none := by
    refine Table.lookup_eq_none_iff.mpr fun hkey => hnotPacked (List.mem_filter.mpr ⟨hkey, ?_⟩)
    simpa using hnotLoose
  simp only [lookupRef, ofTables, hloose, hpacked]
  rfl

end Repository

/-! ## A healthy registry -/

/-- A commit of a tree. -/
def firstCommit : List (ObjectId × StoredObject) :=
  [(.ofNat 0, .commit (.ofNat 1) [] (ascii "a <a> 0 +0000") (ascii "a <a> 0 +0000") [])]

/-- Every module has a repository with a commit that is tagged as a version. -/
def openTagged : StoreAccess := fun _ => .ok (oneTag firstCommit).view

theorem healthy_openTagged (r : Registry) : r.Healthy openTagged := by
  intro space name provider location _
  refine ⟨_, ["refs/tags/v1.0.0"], rfl, ⟨rfl, ?_⟩, Repository.looksUp_ofTables (by decide) rfl⟩
  intro name hname
  rw [List.mem_singleton.mp hname]
  exact ⟨⟨⟨.ofNat 1⟩, 0⟩, rfl⟩

/-- A build of the tagged version. -/
def buildOf (chars : List Char) (legal : isIdentifierList chars = true) : Version :=
  ⟨[1, 0, 0], none, some ⟨chars, legal⟩, by decide⟩

theorem reads_openTagged {version : String} {v : Version} (hv : Version.parse version = .ok v) :
    ReadsVersion (.ofConfig mergedProviders) openTagged (.location "a" "b" "c" version)
      firstProvider (oneTag firstCommit).view ["refs/tags/v1.0.0"] v where
  reads.asks.located := ⟨"a", "b", "c", rfl, located_firstProvider⟩
  reads.asks.parsed text h := by
    cases h
    exact ⟨v, hv⟩
  reads.opened := rfl
  reads.names := rfl
  version := ⟨version, rfl, hv⟩

theorem server_errors_openTagged :
    (Registry.ofConfig mergedProviders).Healthy openTagged ∧
    (Registry.ofConfig mergedProviders).reply openTagged none
      (.location "a" "b" "c" "1.0.0+a") = (.ofError .notFound, []) := by
  have hparse : Version.parse "1.0.0+a" = .ok (buildOf ['a'] rfl) := rfl
  have hhealthy := healthy_openTagged (.ofConfig mergedProviders)
  obtain ⟨-, -, -, hmissing⟩ := server_errors hhealthy
  refine ⟨hhealthy, hmissing none _ _ _ _ _ (reads_openTagged hparse) rfl (by decide) ?_⟩
  intro _
  decide

/-- A build whose text ends with `.lock` has no legal tag, and the request for it is a server
error. -/
theorem lock_build_server_error :
    Config.merge twoProviders = .ok mergedProviders ∧
    (Registry.ofConfig mergedProviders).Healthy openTagged ∧
    (∃ v, Version.parse "1.0.0+a.lock" = .ok v ∧ v.tagRef ∉ ["refs/tags/v1.0.0"]) ∧
    ((Registry.ofConfig mergedProviders).respond openTagged "GET"
      (ascii "/a/b/c/1.0.0+a.lock/download")).1.status = 500 := by
  have hparse : Version.parse "1.0.0+a.lock" = .ok (buildOf "a.lock".toList rfl) := rfl
  have hhealthy := healthy_openTagged (.ofConfig mergedProviders)
  have herror : ServerError (.ofConfig mergedProviders) openTagged
      (.location "a" "b" "c" "1.0.0+a.lock") :=
    .unnameable rfl (reads_openTagged hparse) (any_equivalent_iff.mp rfl) (by decide)
  refine ⟨merge_twoProviders, hhealthy, ⟨_, hparse, by decide⟩, ?_⟩
  exact status_respond_iff.mpr ⟨_, _, _, rfl, rfl, rfl, (status_eq_500_iff hhealthy).mpr herror⟩

end TagRegistry
