import TagRegistry.CommandLine.Run
import TagRegistry.Proofs.BodyReading
import TagRegistry.Proofs.FlatModules

/-! The report on a configuration tells what its registry answers.

Report and answers come from the same list of versions, or from the same failure to get it. In each
of the three states that a module's repository can be in, the line of the report and the answers to
the two requests for versions are determined, and no two states have the same line. -/

namespace TagRegistry

open Json (Value)

/-! ## Lines of the report -/

namespace ModuleStatus

variable {status status' : ModuleStatus} {location : Location}

/-- What a report says of a module. -/
def text (location : Location) : ModuleStatus → String
  | .versions count latest => s!"{count} versions, latest {latest}"
  | .noVersions => "no versions"
  | .unreadable cause => s!"unreadable ({location.text}): {ModuleReport.reason cause}"

theorem toList_text_versions (location : Location) (count : Nat) (latest : Version) :
    (text location (.versions count latest)).toList =
      Nat.toDigits 10 count ++ (" versions, latest ".toList ++ latest.render.toList) := by
  simp only [text, String.toList_append, Nat.toString_eq_ofList_toDigits, String.toList_ofList,
    List.append_assoc]
  rfl

theorem versions_inj {count count' : Nat} {latest latest' : Version}
    (h : text location (.versions count latest) = text location (.versions count' latest')) :
    count = count' ∧ latest = latest' := by
  have hdigits (n : Nat) : ∀ c ∈ Nat.toDigits 10 n, c.isDigit = true :=
    fun c hc => Text.Decimal.isDigit_of_mem_digits hc
  have hlist := congrArg String.toList h
  rw [toList_text_versions, toList_text_versions] at hlist
  have hcount := congrArg (List.takeWhile Char.isDigit) hlist
  rw [List.takeWhile_append_of_pos (hdigits count),
    List.takeWhile_append_of_pos (hdigits count')] at hcount
  have hsame : Nat.toDigits 10 count = Nat.toDigits 10 count' := List.append_cancel_right hcount
  rw [hsame] at hlist
  have hvalue := congrArg Text.Decimal.value hsame
  rw [← Text.Decimal.digits, ← Text.Decimal.digits, Text.Decimal.value_digits,
    Text.Decimal.value_digits] at hvalue
  have hlatest := String.toList_inj.mp (List.append_cancel_left (List.append_cancel_left hlist))
  exact ⟨hvalue, Version.render_injective hlatest⟩

/-- What a status begins with tells its kind. -/
def kindOf (text : String) : Nat :=
  if text.toList.head? = some 'n' then 1 else if text.toList.head? = some 'u' then 2 else 0

theorem kindOf_text_versions (location : Location) (count : Nat) (latest : Version) :
    kindOf (text location (.versions count latest)) = 0 := by
  obtain ⟨c, digits, hdigits⟩ := List.exists_cons_of_ne_nil (Text.Decimal.digits_ne_nil count)
  have hdigit : c.isDigit = true :=
    Text.Decimal.isDigit_of_mem_digits (n := count) (hdigits ▸ List.mem_cons_self)
  have hhead : (text location (.versions count latest)).toList.head? = some c := by
    rw [toList_text_versions, ← Text.Decimal.digits, hdigits]
    rfl
  have hn : c ≠ 'n' := by
    intro h
    rw [h] at hdigit
    cases hdigit
  have hu : c ≠ 'u' := by
    intro h
    rw [h] at hdigit
    cases hdigit
  simp [kindOf, hhead, hn, hu]

theorem kindOf_text_unreadable (location : Location) (cause : StoreError) :
    kindOf (text location (.unreadable cause)) = 2 := by
  have hhead : (text location (.unreadable cause)).toList.head? = some 'u' := by
    simp only [text, String.toList_append, List.append_assoc]
    rfl
  simp [kindOf, hhead]

/-- What is said of a module tells its status, up to the reason why it cannot be read. -/
theorem text_inj (h : status.text location = status'.text location) :
    status = status' ∨ status.isUnreadable = true ∧ status'.isUnreadable = true := by
  have hkind := congrArg kindOf h
  have hnone : kindOf (text location .noVersions) = 1 := by simp [kindOf, text]
  cases status <;> cases status' <;>
    simp only [kindOf_text_versions, kindOf_text_unreadable, hnone] at hkind
  case versions.versions count latest count' latest' =>
    obtain ⟨hcount, hlatest⟩ := versions_inj h
    rw [hcount, hlatest]
    exact .inl rfl
  case noVersions.noVersions => exact .inl rfl
  case unreadable.unreadable cause cause' => exact .inr ⟨rfl, rfl⟩
  all_goals cases hkind

end ModuleStatus

namespace ModuleReport

variable {m : ServedModule} {status status' : ModuleStatus}

/-- The line that says something of a module. -/
def lineOf (m : ServedModule) (said : String) : String := s!"module: {m.coordinate}: {said}"

theorem line_eq (m : ServedModule) (status : ModuleStatus) :
    line ⟨m, status⟩ = lineOf m (status.text m.location) := by
  cases status <;> rfl

theorem line_inj (h : line ⟨m, status⟩ = line ⟨m, status'⟩) :
    status = status' ∨ status.isUnreadable = true ∧ status'.isUnreadable = true := by
  rw [line_eq, line_eq] at h
  exact ModuleStatus.text_inj ((String.append_right_inj _).mp h)

end ModuleReport

/-! ## The states of a module -/

/-- What is seen of a module in each state of its repository: its status in the report, and the
answers to the requests for all versions and for the latest one. -/
inductive Observed (r : Registry) (m : ServedModule) :
    ModuleStatus → Response → Response → Prop where
  | versions (latest : Version) (rest : List Version) :
      Observed r m (.versions (rest.length + 1) latest)
        (.json (VersionList.of r.hostname.text m.coordinate (latest :: rest)).toJson)
        (.json (ModuleSummary.of m.coordinate latest).toJson)
  | noVersions :
      Observed r m .noVersions (.json (VersionList.of r.hostname.text m.coordinate []).toJson)
        (.ofError .notFound)
  | unreadable (cause : StoreError) :
      Observed r m (.unreadable cause) (.ofError .internal) (.ofError .internal)

section Observation

variable {r : Registry} {access : StoreAccess} {m : ServedModule}
variable {space name provider : String}

theorem ModuleReport.of_ok {versions : List Version}
    (h : access m.location.gitDir >>= Catalog.listVersions = .ok versions) :
    of access m = ⟨m, .ofVersions versions⟩ := by
  rw [of, h]

theorem ModuleReport.of_error {cause : StoreError}
    (h : access m.location.gitDir >>= Catalog.listVersions = .error cause) :
    of access m = ⟨m, .unreadable cause⟩ := by
  rw [of, h]

theorem ModuleReport.of_eq (access : StoreAccess) (m : ServedModule) :
    of access m = ⟨m, (of access m).status⟩ := by
  rw [of]
  split <;> rfl

theorem ServedModule.versions?_eq (m : ServedModule) (access : StoreAccess) :
    m.versions? access = (access m.location.gitDir >>= Catalog.listVersions).toOption := by
  rw [versions?]
  cases access m.location.gitDir <;> rfl

/-- Both requests fail if the versions cannot be read. -/
theorem replies_of_unread (patience : Option Nat) (h : Located r space name provider m)
    (hunread : m.versions? access = none) :
    (r.reply access patience (.everyVersion space name provider)).1 = .ofError .internal ∧
      (r.reply access patience (.latest space name provider)).1 = .ofError .internal := by
  have hevery : Asks r (.everyVersion space name provider) m :=
    ⟨⟨space, name, provider, rfl, h⟩, nofun⟩
  have hlatest : Asks r (.latest space name provider) m :=
    ⟨⟨space, name, provider, rfl, h⟩, nofun⟩
  have hreading := m.reading access
  rw [hunread] at hreading
  cases hreading with
  | unopened store =>
    rw [Registry.reply_of_error ((Refused.unopened hevery store).outcome patience),
      Registry.reply_of_error ((Refused.unopened hlatest store).outcome patience)]
    exact ⟨rfl, rfl⟩
  | unread store unread =>
    rw [Registry.reply_of_error ((Refused.unread hevery store unread).outcome patience),
      Registry.reply_of_error ((Refused.unread hlatest store unread).outcome patience)]
    exact ⟨rfl, rfl⟩

/-- If there are none, there is no latest one. -/
theorem reply_latest_of_none (patience : Option Nat) (h : Located r space name provider m)
    (hnone : m.versions? access = some []) :
    (r.reply access patience (.latest space name provider)).1 = .ofError .notFound := by
  have hreading := m.reading access
  generalize hversions : m.versions? access = versions? at hreading
  rw [hnone] at hversions
  cases hreading with
  | unopened | unread => cases hversions
  | read store read =>
    have hreads : Reads r access (.latest space name provider) m _ _ :=
      ⟨⟨⟨space, name, provider, rfl, h⟩, nofun⟩, store, read⟩
    have hunnamed := Catalog.ofNames_eq_nil_iff.mp (Option.some.inj hversions).symm
    rw [Registry.reply_of_error ((Refused.noVersions hreads hunnamed).outcome patience)]

/-- The report and the answers agree on the state of a configured module. -/
theorem observed (access : StoreAccess) (patience : Option Nat)
    (h : Located r space name provider m) :
    Observed r m (ModuleReport.of access m).status
      (r.reply access patience (.everyVersion space name provider)).1
      (r.reply access patience (.latest space name provider)).1 := by
  have hversions := m.versions?_eq access
  cases hlist : access m.location.gitDir >>= Catalog.listVersions with
  | error cause =>
    rw [hlist] at hversions
    obtain ⟨hevery, hlatest⟩ := replies_of_unread patience h hversions
    rw [ModuleReport.of_error hlist, hevery, hlatest]
    exact .unreadable cause
  | ok versions =>
    rw [hlist] at hversions
    have hanswer : r.versionList? access space name provider =
        some (VersionList.of r.hostname.text m.coordinate versions) := by
      rw [Registry.versionList?_of_located h, hversions]
      rfl
    rw [ModuleReport.of_ok hlist, (Registry.reply_everyVersion patience).1 _ hanswer]
    cases versions with
    | nil =>
      rw [reply_latest_of_none patience h hversions]
      exact .noVersions
    | cons latest rest =>
      have hsummary := (latestSummary?_eq_some_iff h).mpr ⟨latest, rest, hversions, rfl⟩
      rw [(Registry.reply_latest patience).1 _ hsummary]
      exact .versions latest rest

end Observation

/-! ## What a client reads -/

/-- What an answer says as a body of some kind. -/
def Response.bodyAs? {α : Type} (ofJson? : Value → Option α) (response : Response) : Option α :=
  match response.body with
  | .whole octets => if response.status = 200 then decodeBody? ofJson? octets else none
  | .stream _ => none

theorem Response.bodyAs?_json {α : Type} {toJson : α → Value} {ofJson? : Value → Option α}
    (h : ReadAsWritten toJson ofJson?) (a : α) :
    (Response.json (toJson a)).bodyAs? ofJson? = some a := by
  show (if 200 = 200 then decodeBody? ofJson? (encodeBody toJson a) else none) = some a
  rw [if_pos rfl, h.decode_encode]

theorem Response.bodyAs?_ofError {α : Type} (ofJson? : Value → Option α) (e : RequestError) :
    (Response.ofError e).bodyAs? ofJson? = none := by
  cases e <;> rfl

namespace Registry

variable (r : Registry) (access : StoreAccess) (patience : Option Nat) (c : Coordinate)

/-- The answer to the request for all versions of a coordinate. -/
def versionsAnswer : Response :=
  (r.reply access patience (.everyVersion c.space c.name c.provider)).1

/-- The answer to the request for the latest version of a coordinate. -/
def latestAnswer : Response :=
  (r.reply access patience (.latest c.space c.name c.provider)).1

/-- The versions that a client reads in the answer. -/
def listedTexts? : Option (List String) :=
  ((r.versionsAnswer access patience c).bodyAs? VersionList.ofJson?).map VersionList.texts

end Registry

/-- The line of a module in the report tells the answers to the requests for its versions. -/
structure Foretold (r : Registry) (access : StoreAccess) (patience : Option Nat)
    (m : ServedModule) : Prop where
  versions : ∀ (count : Nat) (latest : Version), (ModuleReport.of access m).line =
      ModuleReport.lineOf m s!"{count} versions, latest {latest}" ↔
    ∃ texts, r.listedTexts? access patience m.coordinate = some texts ∧ texts.length = count ∧
      texts.head? = some latest.render
  latest : ∀ latest : Version, (∃ count : Nat, (ModuleReport.of access m).line =
      ModuleReport.lineOf m s!"{count} versions, latest {latest}") ↔
    (r.latestAnswer access patience m.coordinate).bodyAs? ModuleSummary.ofJson? =
      some (ModuleSummary.of m.coordinate latest)
  noVersions : (ModuleReport.of access m).line = ModuleReport.lineOf m "no versions" ↔
    r.listedTexts? access patience m.coordinate = some []
  notFound : (ModuleReport.of access m).line = ModuleReport.lineOf m "no versions" ↔
    (r.latestAnswer access patience m.coordinate).status = 404
  unreadable : (∃ cause, (ModuleReport.of access m).line =
      ModuleReport.lineOf m s!"unreadable ({m.location.text}): {ModuleReport.reason cause}") ↔
    (r.versionsAnswer access patience m.coordinate).status = 500
  isUnreadable : (ModuleReport.of access m).status.isUnreadable = true ↔
    (r.versionsAnswer access patience m.coordinate).status = 500

section Foretelling

variable {r : Registry} {access : StoreAccess} {m : ServedModule}

/-- The line tells a status that is not a failure. -/
theorem line_eq_iff (status : ModuleStatus) (hread : status.isUnreadable = false) :
    (ModuleReport.of access m).line = ModuleReport.lineOf m (status.text m.location) ↔
      (ModuleReport.of access m).status = status := by
  rw [← ModuleReport.line_eq, ModuleReport.of_eq]
  constructor
  · intro hline
    rcases ModuleReport.line_inj hline with heq | ⟨-, hkind⟩
    · exact heq
    · rw [hread] at hkind
      cases hkind
  · intro heq
    rw [heq]

/-- It tells a failure, whatever its cause is. -/
theorem line_eq_unreadable_iff : (∃ cause, (ModuleReport.of access m).line =
      ModuleReport.lineOf m s!"unreadable ({m.location.text}): {ModuleReport.reason cause}") ↔
    ∃ cause, (ModuleReport.of access m).status = .unreadable cause := by
  rw [ModuleReport.of_eq]
  constructor
  · intro ⟨cause, hline⟩
    have hsaid := hline.trans (ModuleReport.line_eq m (.unreadable cause)).symm
    rcases ModuleReport.line_inj hsaid with heq | ⟨hkind, -⟩
    · exact ⟨cause, heq⟩
    · cases hstatus : (ModuleReport.of access m).status with
      | versions | noVersions =>
        rw [hstatus] at hkind
        cases hkind
      | unreadable cause => exact ⟨cause, rfl⟩
  · intro ⟨cause, heq⟩
    rw [heq]
    exact ⟨cause, rfl⟩

/-- What is seen of a module, as its status in the report, the versions and the summary that a
client reads, and the codes of the two answers. -/
inductive Seen (m : ServedModule) :
    ModuleStatus → Option (List String) → Option ModuleSummary → Nat → Nat → Prop where
  | versions (latest : Version) (rest : List Version) :
      Seen m (.versions (rest.length + 1) latest) (some ((latest :: rest).map Version.render))
        (some (ModuleSummary.of m.coordinate latest)) 200 200
  | noVersions : Seen m .noVersions (some []) none 200 404
  | unreadable (cause : StoreError) : Seen m (.unreadable cause) none none 500 500

namespace Seen

variable {status : ModuleStatus} {texts? : Option (List String)} {summary? : Option ModuleSummary}
variable {every newest count : Nat} {latest : Version}

theorem versions_iff (h : Seen m status texts? summary? every newest) :
    status = .versions count latest ↔ ∃ texts, texts? = some texts ∧ texts.length = count ∧
      texts.head? = some latest.render := by
  cases h with
  | versions first rest =>
    constructor
    · intro heq
      cases heq
      exact ⟨_, rfl, by simp, rfl⟩
    · intro ⟨texts, htexts, hcount, hhead⟩
      cases htexts
      have hlatest := Version.render_injective (Option.some.inj hhead)
      rw [List.length_map, List.length_cons] at hcount
      rw [hcount, hlatest]
  | noVersions =>
    refine ⟨nofun, ?_⟩
    intro ⟨texts, htexts, hcount, hhead⟩
    cases htexts
    cases hhead
  | unreadable cause => exact ⟨nofun, nofun⟩

theorem latest_iff (h : Seen m status texts? summary? every newest) :
    (∃ count, status = .versions count latest) ↔
      summary? = some (ModuleSummary.of m.coordinate latest) := by
  cases h with
  | versions first rest =>
    constructor
    · intro ⟨count, heq⟩
      cases heq
      rfl
    · intro heq
      have hversion := congrArg ModuleSummary.version (Option.some.inj heq)
      rw [Version.render_injective hversion]
      exact ⟨_, rfl⟩
  | noVersions | unreadable => simp

theorem noVersions_iff (h : Seen m status texts? summary? every newest) :
    (status = .noVersions ↔ texts? = some []) ∧ (status = .noVersions ↔ newest = 404) := by
  cases h <;> simp

theorem unreadable_iff (h : Seen m status texts? summary? every newest) :
    ((∃ cause, status = .unreadable cause) ↔ every = 500) ∧
      (status.isUnreadable = true ↔ every = 500) := by
  cases h <;> simp [ModuleStatus.isUnreadable]

end Seen

theorem seen (access : StoreAccess) (patience : Option Nat)
    (h : Located r m.coordinate.space m.coordinate.name m.coordinate.provider m) :
    Seen m (ModuleReport.of access m).status (r.listedTexts? access patience m.coordinate)
      ((r.latestAnswer access patience m.coordinate).bodyAs? ModuleSummary.ofJson?)
      (r.versionsAnswer access patience m.coordinate).status
      (r.latestAnswer access patience m.coordinate).status := by
  have hlist := readAsWritten VersionList.legal_toJson VersionList.ofJson?_toJson
  have hsummary := readAsWritten ModuleSummary.legal_toJson ModuleSummary.ofJson?_toJson
  have hobserved := observed access patience h
  rw [Registry.listedTexts?, Registry.versionsAnswer, Registry.latestAnswer]
  generalize (ModuleReport.of access m).status = status at hobserved ⊢
  generalize (r.reply access patience (.everyVersion _ _ _)).1 = every at hobserved ⊢
  generalize (r.reply access patience (.latest _ _ _)).1 = newest at hobserved ⊢
  cases hobserved with
  | versions latest rest =>
    rw [Response.bodyAs?_json hlist, Response.bodyAs?_json hsummary, Option.map_some,
      VersionList.texts_of]
    exact .versions latest rest
  | noVersions =>
    rw [Response.bodyAs?_json hlist, Response.bodyAs?_ofError, Option.map_some,
      VersionList.texts_of]
    exact .noVersions
  | unreadable cause =>
    rw [Response.bodyAs?_ofError, Response.bodyAs?_ofError]
    exact .unreadable cause

theorem foretold (access : StoreAccess) (patience : Option Nat)
    (h : Located r m.coordinate.space m.coordinate.name m.coordinate.provider m) :
    Foretold r access patience m := by
  have hseen := seen access patience h
  have hversions (count : Nat) (latest : Version) : (ModuleReport.of access m).line =
      ModuleReport.lineOf m s!"{count} versions, latest {latest}" ↔
        (ModuleReport.of access m).status = .versions count latest :=
    line_eq_iff (.versions count latest) rfl
  have hnone : (ModuleReport.of access m).line = ModuleReport.lineOf m "no versions" ↔
      (ModuleReport.of access m).status = .noVersions := line_eq_iff .noVersions rfl
  constructor
  case versions =>
    intro count latest
    exact (hversions count latest).trans hseen.versions_iff
  case latest =>
    intro latest
    simp only [hversions]
    exact hseen.latest_iff
  case noVersions => exact hnone.trans hseen.noVersions_iff.1
  case notFound => exact hnone.trans hseen.noVersions_iff.2
  case unreadable => exact line_eq_unreadable_iff.trans hseen.unreadable_iff.1
  case isUnreadable => exact hseen.unreadable_iff.2

end Foretelling

/-! ## The command -/

/-- What a report begins with. -/
def Config.heading (c : Config) : List String :=
  s!"hostname: {c.hostname}" :: c.files.map (fun file => s!"file: {Path.display file}") ++
    Report.listenLines c.listeners

/-- The number of modules of which the request for all versions fails. -/
def failing (c : Config) (access : StoreAccess) (patience : Option Nat) : Nat :=
  c.modules.toList.countP fun item =>
    ((Registry.ofConfig c).versionsAnswer access patience item.1).status = 500

/-- A run of the command tells what the registry of the configuration answers. -/
structure Predicts (c : Config) (access : StoreAccess) (patience : Option Nat)
    (result : RunResult) : Prop where
  /-- After the heading there is one line for each module, in the order of the coordinates. -/
  output : result.output = String.join ((c.heading ++ c.modules.toList.map fun item =>
    (ModuleReport.of access ⟨item.1, item.2⟩).line).map (· ++ "\n"))
  configured : ∀ coordinate location, (coordinate, location) ∈ c.modules.toList ↔
    c.modules.lookup coordinate.space coordinate.name coordinate.provider = some location
  ascending : c.modules.toList.Pairwise fun a b => a.1.compare b.1 = .lt
  foretold : ∀ item ∈ c.modules.toList,
    Foretold (.ofConfig c) access patience ⟨item.1, item.2⟩
  fails_iff : result.error ≠ none ↔ ∃ item ∈ c.modules.toList,
    ((Registry.ofConfig c).versionsAnswer access patience item.1).status = 500
  error : ∀ e, result.error = some e → e = .unreadableModules (failing c access patience)

theorem predicts_check {files : List (Bytes × ConfigFile)} {c : Config}
    (hc : Config.merge files = .ok c) (access : StoreAccess) (patience : Option Nat) :
    Predicts c access patience (Invocation.check access c) := by
  have hsorted := Config.wellFormed_of_merge hc
  have hforetold : ∀ item ∈ c.modules.toList,
      Foretold (.ofConfig c) access patience ⟨item.1, item.2⟩ := by
    intro item hitem
    exact foretold access patience ⟨hsorted.mem_toList_iff.mp hitem,
      Coordinate.make_of_isSegment item.1.segments⟩
  have hcount : (Report.of access c).unreadable = failing c access patience := by
    rw [Report.unreadable, Report.of, List.countP_map, failing]
    refine List.countP_congr fun item hitem => ?_
    rw [Function.comp_apply, (hforetold item hitem).isUnreadable, decide_eq_true_iff]
  have herror : (Invocation.check access c).error =
      if failing c access patience = 0 then none
      else some (.unreadableModules (failing c access patience)) := by
    rw [← hcount]
    rfl
  constructor
  case output =>
    have hlines : (Report.of access c).lines = c.heading ++ c.modules.toList.map fun item =>
        (ModuleReport.of access ⟨item.1, item.2⟩).line := by
      rw [Report.lines, Report.of, List.map_map]
      rfl
    rw [← hlines]
    rfl
  case configured => exact fun _ _ => hsorted.mem_toList_iff
  case ascending => exact hsorted.pairwise_toList
  case foretold => exact hforetold
  case fails_iff =>
    have hnone : (Invocation.check access c).error = none ↔ failing c access patience = 0 := by
      rw [herror]
      split <;> simp_all
    rw [ne_eq, hnone, failing, List.countP_eq_zero]
    simp
  case error =>
    intro e he
    rw [herror] at he
    split at he
    · cases he
    · cases he
      rfl

/-- A configuration that is loaded is merged from files. -/
theorem Config.exists_merge_of_load {d : Disk} {paths : List Bytes} {c : Config}
    (h : load d paths = .ok c) : ∃ files, merge files = .ok c := by
  rw [load] at h
  obtain ⟨expanded, -, h⟩ := exists_ok_of_bind h
  dsimp only at h
  split at h
  · cases h
  · obtain ⟨files, -, h⟩ := exists_ok_of_bind h
    exact ⟨files, h⟩

/-- What the command reports of a configuration, and whether it fails, tells what the registry of
this configuration answers, as long as the repositories stay as they are. -/
theorem check_predicts :
    (∀ files c access patience, Config.merge files = .ok c →
      Predicts c access patience (Invocation.check access c)) ∧
    ∀ (invocation : Invocation) d binds c patience, invocation.command = .check →
      Config.load d invocation.configs = .ok c →
      Predicts c d.openStore patience (invocation.run d binds) := by
  refine ⟨fun _ _ access patience hc => predicts_check hc access patience, ?_⟩
  intro invocation d binds c patience hcommand hload
  obtain ⟨files, hc⟩ := Config.exists_merge_of_load hload
  have hrun : invocation.run d binds = Invocation.check d.openStore c := by
    simp only [Invocation.run, hload, hcommand]
  rw [hrun]
  exact predicts_check hc d.openStore patience

/-- The module whose repository cannot be opened. -/
def secondProvider : ServedModule where
  coordinate := ⟨"a", "b", "d", by decide⟩
  location := ⟨Bytes.ascii "x.git", "r.toml: module[0]"⟩

theorem line_firstProvider : (ModuleReport.of openFirst firstProvider).line =
    ModuleReport.lineOf firstProvider s!"{1} versions, latest {Version.release 1 0 0}" := by
  have hversions := firstProvider.versions?_eq openFirst
  rw [versions?_firstProvider] at hversions
  cases hlist : openFirst firstProvider.location.gitDir >>= Catalog.listVersions with
  | error cause =>
    rw [hlist] at hversions
    cases hversions
  | ok versions =>
    rw [hlist] at hversions
    cases hversions
    rw [ModuleReport.of_ok hlist]
    rfl

/-- The first module is listed with its version; the second one makes the command fail. -/
theorem check_predicts_twoProviders :
    (∃ texts, (Registry.ofConfig mergedProviders).listedTexts? openFirst none
      firstProvider.coordinate = some texts ∧ texts.length = 1 ∧ texts.head? = some "1.0.0") ∧
    ((Registry.ofConfig mergedProviders).versionsAnswer openFirst none
      secondProvider.coordinate).status = 500 ∧
    (Invocation.check openFirst mergedProviders).error ≠ none := by
  have h := check_predicts.1 twoProviders mergedProviders openFirst none merge_twoProviders
  have hfirst :
      (firstProvider.coordinate, firstProvider.location) ∈ mergedProviders.modules.toList :=
    (h.configured _ _).mpr rfl
  have hsecond :
      (secondProvider.coordinate, secondProvider.location) ∈ mergedProviders.modules.toList :=
    (h.configured _ _).mpr rfl
  have hfails := (h.foretold _ hsecond).isUnreadable.mp rfl
  exact ⟨((h.foretold _ hfirst).versions 1 (.release 1 0 0)).mp line_firstProvider, hfails,
    h.fails_iff.mpr ⟨_, hsecond, hfails⟩⟩

end TagRegistry
