import TagRegistry.Proofs.Stages

/-! How requests end.

The table of refusals has a row for each step that may fail. It says exactly when a request is
refused, in which way, and what is logged. Nothing else is told to the client, so that a version
that is none cannot be told from one that is not there. -/

namespace TagRegistry

/-! ## The table -/

/-- The store of an operation's module opens and lists its references. -/
structure Reads (r : Registry) (access : StoreAccess) (op : Operation String) (m : ServedModule)
    (s : ObjectStore) (names : List String) : Prop where
  asks : Asks r op m
  opened : access m.location.gitDir = .ok s
  names : s.referenceNames = .ok names

/-- An operation is about a version in a store that lists its references. -/
structure ReadsVersion (r : Registry) (access : StoreAccess) (op : Operation String)
    (m : ServedModule) (s : ObjectStore) (names : List String) (v : Version) : Prop where
  reads : Reads r access op m s names
  version : ∃ text, op.version? = some text ∧ Version.parse text = .ok v

/-- The table of refusals: the error that a request ends in, and what is logged. -/
inductive Refused (r : Registry) (access : StoreAccess) :
    Operation String → RequestError → List StoreFailure → Prop where
  | unknownName {space name : String} (unknown : r.modules.providers? space name = none) :
      Refused r access (.providers space name) .notFound []
  | unconfigured {op : Operation String} {space name provider : String}
      (module : op.module? = some (space, name, provider))
      (unknown : ∀ m, ¬Located r space name provider m) : Refused r access op .notFound []
  | malformed {op : Operation String} {text : String} (version : op.version? = some text)
      (malformed : ∀ v, Version.parse text ≠ .ok v) : Refused r access op .notFound []
  | unopened {op : Operation String} {m : ServedModule} {cause : StoreError} (asks : Asks r op m)
      (unopened : access m.location.gitDir = .error cause) :
      Refused r access op .internal [⟨m, .store cause⟩]
  | unread {op : Operation String} {m : ServedModule} {s : ObjectStore} {cause : StoreError}
      (asks : Asks r op m) (opened : access m.location.gitDir = .ok s)
      (unread : s.referenceNames = .error cause) : Refused r access op .internal [⟨m, .store cause⟩]
  | noVersions {space name provider : String} {m : ServedModule} {s : ObjectStore}
      {names : List String} (reads : Reads r access (.latest space name provider) m s names)
      (none : ∀ name ∈ names, ∀ v, ¬NamesVersion name v) :
      Refused r access (.latest space name provider) .notFound []
  | unlisted {op : Operation String} {m : ServedModule} {s : ObjectStore} {names : List String}
      {v : Version} (reads : ReadsVersion r access op m s names v) (unlisted : ¬Listed names v) :
      Refused r access op .notFound []
  | absent {op : Operation String} {m : ServedModule} {s : ObjectStore} {names : List String}
      {v : Version} {cause : StoreError} (download : op.isDownload = true)
      (reads : ReadsVersion r access op m s names v) (listed : Listed names v)
      (peeled : s.peel v.tagRef = .error cause) (absent : cause.isRefNotFound = true) :
      Refused r access op .notFound []
  | damaged {op : Operation String} {m : ServedModule} {s : ObjectStore} {names : List String}
      {v : Version} {cause : StoreError} (download : op.isDownload = true)
      (reads : ReadsVersion r access op m s names v) (listed : Listed names v)
      (peeled : s.peel v.tagRef = .error cause) (damaged : cause.isRefNotFound = false) :
      Refused r access op .internal [⟨m, .store cause⟩]
  | otherTree {space name provider version supplied : String} {m : ServedModule} {s : ObjectStore}
      {names : List String} {v : Version} {tree : TreeId}
      (reads : ReadsVersion r access (.archive space name provider version supplied) m s names v)
      (hasTree : HasTree s v tree) (other : supplied ∉ tree.spellings) :
      Refused r access (.archive space name provider version supplied) .notFound []

theorem ReadsVersion.parsed {r : Registry} {access : StoreAccess} {op : Operation String}
    {m : ServedModule} {s : ObjectStore} {names : List String} {v : Version}
    (h : ReadsVersion r access op m s names v) : Parsed op.version? (some v) := by
  obtain ⟨text, hop, hv⟩ := h.version
  rw [hop]
  exact .some hv

section Table

variable {r : Registry} {access : StoreAccess} (patience : Option Nat)
variable {op : Operation String} {e : RequestError} {log : List StoreFailure}

/-- Each row of the table is how such a request ends. -/
theorem Refused.outcome (h : Refused r access op e log) :
    (r.serve access patience op).outcome = (.error e, log) := by
  cases h with
  | unknownName unknown =>
    exact Serving.outcome_bind_error (Registry.listProviders_of_none access unknown)
  | unconfigured module unknown =>
    rw [Registry.serve_eq_reach module]
    exact Serving.outcome_bind_error
      (Serving.outcome_bind_error (Registry.locate_of_not_located unknown))
  | malformed version malformed =>
    obtain ⟨space, name, provider, hop⟩ := Operation.exists_module_of_version version
    rw [Registry.serve_eq_reach hop, version]
    exact Serving.outcome_bind_error (Registry.reach_of_malformed malformed)
  | unopened asks unopened => exact Registry.serve_of_unopened asks unopened
  | unread asks opened unread =>
    obtain ⟨space, name, provider, hop, -⟩ := asks.located
    obtain ⟨v?, hv⟩ := asks.exists_parsed
    rw [Registry.serve_of_opened patience asks hv opened]
    exact Registry.finish_of_unread (by rw [hop]; rfl) hv unread
  | noVersions reads none =>
    rw [Registry.serve_of_opened patience reads.asks .none reads.opened,
      Registry.finish_latest reads.names, Catalog.ofNames_eq_nil_iff.mpr none]
    rfl
  | unlisted reads unlisted =>
    obtain ⟨text, hop, -⟩ := reads.version
    rw [Registry.serve_of_opened patience reads.reads.asks reads.parsed reads.reads.opened]
    exact Registry.finish_of_unlisted hop reads.reads.names unlisted
  | absent download reads listed peeled absent =>
    rw [Registry.serve_of_opened patience reads.reads.asks reads.parsed reads.reads.opened]
    refine Registry.finish_of_treeless download ?_
    rw [ServedModule.treeOf_of_error _ reads.reads.names listed peeled, if_pos absent]
  | damaged download reads listed peeled damaged =>
    rw [Registry.serve_of_opened patience reads.reads.asks reads.parsed reads.reads.opened]
    refine Registry.finish_of_treeless download ?_
    rw [ServedModule.treeOf_of_error _ reads.reads.names listed peeled, damaged,
      if_neg Bool.false_ne_true]
  | otherTree reads hasTree other =>
    rw [Registry.serve_of_opened patience reads.reads.asks reads.parsed reads.reads.opened,
      Registry.finish_archive_of_other hasTree other]

/-- A request ends with an answer. -/
def Served (r : Registry) (access : StoreAccess) (patience : Option Nat) (op : Operation String) :
    Prop :=
  ∃ response, (r.serve access patience op).outcome.1 = .ok response

variable {m : ServedModule} {s : ObjectStore} {names : List String} {v : Version}

/-- A download from a store that lists its references is refused or served. -/
theorem refused_or_served_download (download : op.isDownload = true)
    (h : ReadsVersion r access op m s names v) :
    (∃ e log, Refused r access op e log) ∨ Served r access patience op := by
  by_cases hl : Listed names v
  · cases hpeel : s.peel v.tagRef with
    | error cause =>
      cases hcause : cause.isRefNotFound with
      | true => exact .inl ⟨_, _, .absent download h hl hpeel hcause⟩
      | false => exact .inl ⟨_, _, .damaged download h hl hpeel hcause⟩
    | ok commit =>
      have htree : HasTree s v commit.tree := ⟨⟨names, h.reads.names, hl⟩, commit, hpeel, rfl⟩
      have hserve :=
        Registry.serve_of_opened patience h.reads.asks h.parsed h.reads.opened
      cases op with
      | discovery | providers | latest | everyVersion | oneVersion => cases download
      | location =>
        exact .inr ⟨_, congrArg Prod.fst (hserve.trans (Registry.finish_location htree))⟩
      | archive space name provider version supplied =>
        by_cases hx : supplied ∈ commit.tree.spellings
        · exact .inr ⟨_, congrArg Prod.fst (hserve.trans (Registry.finish_archive htree hx))⟩
        · exact .inl ⟨_, _, .otherTree h htree hx⟩
  · exact .inl ⟨_, _, .unlisted h hl⟩

/-- So is every request whose store lists its references. -/
theorem refused_or_served_of_reads (h : Reads r access op m s names) :
    (∃ e log, Refused r access op e log) ∨ Served r access patience op := by
  obtain ⟨v?, hv⟩ := h.asks.exists_parsed
  have hserve := Registry.serve_of_opened patience h.asks hv h.opened
  cases op with
  | discovery | providers =>
    obtain ⟨_, _, _, hop, -⟩ := h.asks.located
    cases hop
  | latest =>
    cases hv
    rw [Registry.finish_latest h.names] at hserve
    cases hversions : Catalog.ofNames names with
    | nil => exact .inl ⟨_, _, .noVersions h (Catalog.ofNames_eq_nil_iff.mp hversions)⟩
    | cons v rest =>
      rw [hversions] at hserve
      exact .inr ⟨_, congrArg Prod.fst hserve⟩
  | everyVersion =>
    cases hv
    exact .inr ⟨_, congrArg Prod.fst (hserve.trans (Registry.finish_everyVersion h.names))⟩
  | oneVersion =>
    cases hv with
    | some hparse =>
      rename_i v
      by_cases hl : Listed names v
      · exact .inr ⟨_, congrArg Prod.fst (hserve.trans (Registry.finish_oneVersion h.names hl))⟩
      · exact .inl ⟨_, _, .unlisted ⟨h, _, rfl, hparse⟩ hl⟩
  | location | archive =>
    cases hv with
    | some hparse => exact refused_or_served_download patience rfl ⟨h, _, rfl, hparse⟩

/-- What is not in the table is served. -/
theorem refused_or_served (op : Operation String) :
    (∃ e log, Refused r access op e log) ∨ Served r access patience op := by
  cases hop : op.module? with
  | none =>
    cases op with
    | latest | everyVersion | oneVersion | location | archive => cases hop
    | discovery => exact .inr ⟨_, rfl⟩
    | providers space name =>
      cases hp : r.modules.providers? space name with
      | none => exact .inl ⟨_, _, .unknownName hp⟩
      | some providers =>
        have hlist := Registry.listProviders_of_some access hp
        exact .inr ⟨_, congrArg Prod.fst (Serving.run_bind_ok hlist)⟩
  | some coordinate =>
    obtain ⟨space, name, provider⟩ := coordinate
    by_cases hm : ∃ m, Located r space name provider m
    · obtain ⟨m, hm⟩ := hm
      by_cases hparsed : ∀ text, op.version? = some text → ∃ v, Version.parse text = .ok v
      · have hasks : Asks r op m := ⟨⟨space, name, provider, hop, hm⟩, hparsed⟩
        cases hopen : access m.location.gitDir with
        | error cause => exact .inl ⟨_, _, .unopened hasks hopen⟩
        | ok s =>
          cases hread : s.referenceNames with
          | error cause => exact .inl ⟨_, _, .unread hasks hopen hread⟩
          | ok names => exact refused_or_served_of_reads patience ⟨hasks, hopen, hread⟩
      · simp only [not_forall, not_exists] at hparsed
        obtain ⟨text, hversion, hmalformed⟩ := hparsed
        exact .inl ⟨_, _, .malformed hversion hmalformed⟩
    · exact .inl ⟨_, _, .unconfigured hop (not_exists.mp hm)⟩

/-- The table is complete and says nothing false. -/
theorem outcome_eq_error_iff :
    (r.serve access patience op).outcome = (.error e, log) ↔ Refused r access op e log := by
  constructor
  · intro h
    rcases refused_or_served patience op with ⟨e', log', hrefused⟩ | ⟨response, hserved⟩
    · have hsame := h.symm.trans (hrefused.outcome patience)
      cases hsame
      exact hrefused
    · rw [h] at hserved
      cases hserved
  · exact Refused.outcome patience

end Table

/-! ## What a client sees of it -/

/-- The answer to an operation, with the log of failures. -/
def Registry.reply (r : Registry) (access : StoreAccess) (patience : Option Nat)
    (op : Operation String) : Response × List StoreFailure :=
  match (r.serve access patience op).outcome with
  | (.ok response, log) => (response, log)
  | (.error e, log) => (.ofError e, log)

/-- In the registry of a configuration, every coordinate that has an entry is that of a module. -/
theorem exists_located_iff {files : List (Bytes × ConfigFile)} {c : Config}
    (h : Config.merge files = .ok c) {space name provider : String} :
    (∃ m, Located (.ofConfig c) space name provider m) ↔
      ∃ location, c.modules.lookup space name provider = some location := by
  constructor
  · intro ⟨m, hm⟩
    exact ⟨m.location, hm.module⟩
  · intro ⟨location, hl⟩
    obtain ⟨coordinate, hc⟩ := (Config.wellFormed_of_merge h).make hl
    exact ⟨⟨coordinate, location⟩, hl, hc⟩

section Reply

variable {r : Registry} {access : StoreAccess} {patience : Option Nat} {op : Operation String}

theorem Registry.answer_of_decode {raw : Operation Bytes} (h : raw.decode = .ok op) :
    r.answer access patience raw = r.reply access patience op := by
  rw [answer, h]
  rfl

theorem Registry.reply_of_ok {response : Response} {log : List StoreFailure}
    (h : (r.serve access patience op).outcome = (.ok response, log)) :
    r.reply access patience op = (response, log) := by
  rw [reply, h]

theorem Registry.reply_of_error {e : RequestError} {log : List StoreFailure}
    (h : (r.serve access patience op).outcome = (.error e, log)) :
    r.reply access patience op = (.ofError e, log) := by
  rw [reply, h]

end Reply

/-- Requests are refused as the table says, where the modules are those of the configuration. A
refusal has no body, all providers of a configured name are listed whatever their stores do, and a
malformed version is answered like one that no tag names. -/
theorem refusals (r : Registry) (access : StoreAccess) (patience : Option Nat) :
    (∀ op e log, (r.serve access patience op).outcome = (.error e, log) ↔
      Refused r access op e log) ∧
    (∀ files c, Config.merge files = .ok c → r = .ofConfig c → ∀ space name provider,
      (∃ m, Located r space name provider m) ↔
        ∃ location, c.modules.lookup space name provider = some location) ∧
    (∀ space name log, (r.serve access patience (.providers space name)).outcome ≠
      (.error .internal, log)) ∧
    (∀ op e log, Refused r access op e log →
      r.reply access patience op = (⟨e.status, [("content-length", "0")], .whole []⟩, log)) ∧
    ∀ (op op' : Operation String) (text : String) (m : ServedModule) (s : ObjectStore)
      (names : List String) (v : Version),
      op.version? = some text → (∀ v, Version.parse text ≠ .ok v) →
      ReadsVersion r access op' m s names v → ¬Listed names v →
        r.reply access patience op = r.reply access patience op' := by
  refine ⟨fun op e log => outcome_eq_error_iff patience, ?_, ?_, ?_, ?_⟩
  · rintro files c hmerge rfl space name provider
    exact exists_located_iff hmerge
  · intro space name log h
    cases (outcome_eq_error_iff patience).mp h with
    | unopened asks | unread asks =>
      obtain ⟨_, _, _, hop, -⟩ := asks.located
      cases hop
    | damaged download => cases download
  · intro op e log h
    exact Registry.reply_of_error (h.outcome patience)
  · intro op op' text m s names v hop hmalformed hreads hunlisted
    have hnone : Refused r access op .notFound [] := .malformed hop hmalformed
    have hunnamed : Refused r access op' .notFound [] := .unlisted hreads hunlisted
    rw [Registry.reply_of_error (hnone.outcome patience),
      Registry.reply_of_error (hunnamed.outcome patience)]

theorem parse_latest_ne_ok (v : Version) : Version.parse "latest" ≠ .ok v := by
  intro h
  cases h

/-- The module of a registry with one version, and what is asked for there. -/
theorem reads_oneModule {op : Operation String} {text : String} {v : Version}
    (hop : op.module? = some ("a", "b", "c")) (hversion : op.version? = some text)
    (hv : Version.parse text = .ok v) :
    ReadsVersion (oneModule "a") (fun _ => .ok (oneVersion (.ofNat 1)).view) op servedOne
      (oneVersion (.ofNat 1)).view ["refs/tags/v1.0.0"] v where
  reads.asks.located := ⟨"a", "b", "c", hop, rfl, rfl⟩
  reads.asks.parsed text' h := by
    cases hversion.symm.trans h
    exact ⟨v, hv⟩
  reads.opened := rfl
  reads.names := rfl
  version := ⟨text, hversion, hv⟩

theorem refusals_oneVersion :
    ((oneModule "a").reply (fun _ => .ok (oneVersion (.ofNat 1)).view) none
        (.oneVersion "a" "b" "c" "latest") =
      (oneModule "a").reply (fun _ => .ok (oneVersion (.ofNat 1)).view) none
        (.location "a" "b" "c" "2.0.0")) ∧
    ((oneModule "a").serve (fun _ => .error .damaged) none (.latest "a" "b" "c")).outcome =
      (.error .internal, [⟨servedOne, .store .damaged⟩]) ∧
    (oneModule "a").reply (fun _ => .error .damaged) none (.latest "a" "b" "c") =
      (⟨500, [("content-length", "0")], .whole []⟩, [⟨servedOne, .store .damaged⟩]) := by
  have hunlisted : ¬Listed ["refs/tags/v1.0.0"] (.release 2 0 0) :=
    mt any_equivalent_iff.mpr (by decide)
  have hunopened : Refused (oneModule "a") (fun _ => .error .damaged) (.latest "a" "b" "c")
      .internal [⟨servedOne, .store .damaged⟩] :=
    .unopened ⟨⟨"a", "b", "c", rfl, rfl, rfl⟩, nofun⟩ rfl
  obtain ⟨-, -, -, -, hsame⟩ :=
    refusals (oneModule "a") (fun _ => .ok (oneVersion (.ofNat 1)).view) none
  obtain ⟨htable, -, -, hempty, -⟩ := refusals (oneModule "a") (fun _ => .error .damaged) none
  exact ⟨hsame _ _ _ _ _ _ _ rfl parse_latest_ne_ok (reads_oneModule rfl rfl rfl) hunlisted,
    (htable _ _ _).mpr hunopened, hempty _ _ _ hunopened⟩

/-! ## Two providers -/

/-- The module of the provider that comes first. -/
def firstProvider : ServedModule :=
  { servedOne with location := ⟨Bytes.ascii "w.git", "r.toml: module[1]"⟩ }

theorem located_firstProvider : Located (.ofConfig mergedProviders) "a" "b" "c" firstProvider :=
  ⟨rfl, rfl⟩

end TagRegistry
