import TagRegistry.Proofs.Outcomes
import TagRegistry.Proofs.VersionText

/-! The answers about one module agree.

The latest version of a module, all its versions and its place in the list of providers come from
the same list, that of the versions in its store. Each version of it can be asked for under its
text. -/

namespace TagRegistry

open Bytes (ascii)

/-! ## Coordinates and texts -/

theorem Coordinate.parts_of_make {space name provider : String} {c : Coordinate}
    (h : make space name provider = .ok c) :
    c.space = space ∧ c.name = name ∧ c.provider = provider := by
  unfold make at h
  split at h
  · cases h
  · cases h
  · cases h
  · cases h
    exact ⟨rfl, rfl, rfl⟩

namespace Version

/-- A path spells the text of a version with its own characters. -/
theorem isPlain_render (v : Version) : IsPlain v.render := by
  intro c h
  rw [render, String.toList_ofList] at h
  rcases mem_chars h with rfl | rfl | h
  · decide
  · decide
  · have hnat := toNat_of_isIdentifierChar h
    refine ⟨by omega, ?_, ?_⟩
    · rintro rfl
      cases h
    · rintro rfl
      cases h

theorem readText_render (v : Version) (parameter : Parameter) :
    Operation.readText parameter (ascii v.render) = .ok v.render :=
  readText_ascii v.isPlain_render parameter

theorem ascii_render_ne (v : Version) {raw : Bytes} (text : String)
    (hread : Operation.readText .version raw = .ok text) (h : ∀ v, parse text ≠ .ok v) :
    ascii v.render ≠ raw := by
  intro hraw
  have hrender := v.readText_render .version
  rw [hraw, hread] at hrender
  cases hrender
  exact h v v.parse_render

end Version

/-- The text of a version is not taken for the fixed segment of another path. -/
theorem Operation.ofSegments?_render (space name provider : Bytes) (v : Version) :
    ofSegments? [space, name, provider, ascii v.render] =
      some (.oneVersion space name provider (ascii v.render)) := by
  have hempty : ascii v.render ≠ [] := v.ascii_render_ne "" rfl (fun v => nofun)
  have hother : ascii v.render ≠ ascii "versions" :=
    v.ascii_render_ne "versions" rfl (fun v => nofun)
  simp [ofSegments?, hempty, hother]

/-! ## The versions of a module -/

namespace ServedModule

variable {m : ServedModule} {access : StoreAccess}

/-- The versions that are listed in the store of a module, if it can be read. -/
def versions? (m : ServedModule) (access : StoreAccess) : Option (List Version) :=
  match access m.location.gitDir with
  | .ok s => (Catalog.listVersions s).toOption
  | .error _ => none

/-- The ways in which reading the versions of a module ends. -/
inductive Reading (m : ServedModule) (access : StoreAccess) : Option (List Version) → Prop where
  | unopened {cause : StoreError} (store : access m.location.gitDir = .error cause) :
      Reading m access none
  | unread {s : ObjectStore} {cause : StoreError} (store : access m.location.gitDir = .ok s)
      (unread : s.referenceNames = .error cause) : Reading m access none
  | read {s : ObjectStore} {names : List String} (store : access m.location.gitDir = .ok s)
      (read : s.referenceNames = .ok names) : Reading m access (some (Catalog.ofNames names))

theorem reading (m : ServedModule) (access : StoreAccess) :
    Reading m access (m.versions? access) := by
  unfold versions?
  cases hs : access m.location.gitDir with
  | error cause => exact .unopened hs
  | ok s =>
    cases hn : s.referenceNames with
    | error cause =>
      simp only [Catalog.listVersions_of_error hn]
      exact .unread hs hn
    | ok names =>
      simp only [Catalog.listVersions_eq hn]
      exact .read hs hn

theorem newest?_eq (m : ServedModule) (access : StoreAccess) :
    (m.newest? access).outcome.1.toOption.join =
      (m.versions? access).bind fun versions =>
        versions.head?.map (ModuleSummary.of m.coordinate) := by
  have h := m.reading access
  generalize m.versions? access = versions? at h
  cases h with
  | unopened store =>
    rw [newest?, Serving.outcome_bind_error (store_of_error store)]
    rfl
  | unread store unread =>
    rw [newest?, Serving.outcome_bind_ok (store_of_ok store), latest?_of_unread unread]
    rfl
  | read store read =>
    rw [newest?, Serving.outcome_bind_ok (store_of_ok store), latest?_of_names read]
    rfl

end ServedModule

/-! ## The answers about a module -/

/-- The texts of a list of versions. -/
def VersionList.texts (l : VersionList) : List String :=
  l.modules.flatMap fun p => p.versions.map VersionEntry.version

theorem VersionList.texts_of (hostname : String) (c : Coordinate) (versions : List Version) :
    (of hostname c versions).texts = versions.map Version.render := by
  simp [of, texts]

namespace Registry

variable {r : Registry} {access : StoreAccess} {patience : Option Nat}
variable {space name provider : String} {m : ServedModule}

/-- The summary that a request for the latest version is answered with, if it is. -/
def latestSummary? (r : Registry) (access : StoreAccess) (space name provider : String) :
    Option ModuleSummary :=
  (r.getLatest access space name provider).outcome.1.toOption

/-- The list that a request for all versions is answered with, if it is. -/
def versionList? (r : Registry) (access : StoreAccess) (space name provider : String) :
    Option VersionList :=
  (r.listVersions access space name provider).outcome.1.toOption

/-- What is there, or that it is not. -/
def found {α : Type} : Option α → Serving α
  | some a => pure a
  | none => throw .notFound

theorem latestSummary?_of_located (h : Located r space name provider m) :
    r.latestSummary? access space name provider = (m.newest? access).outcome.1.toOption.join := by
  have hlatest : (r.getLatest access space name provider).outcome =
      (m.newest? access >>= found).outcome := by
    rw [getLatest, Serving.outcome_bind_ok (locate_of_located h), ServedModule.newest?, bind_assoc]
    refine congrArg Serving.outcome (bind_congr fun s => bind_congr fun summary? => ?_)
    cases summary? <;> rfl
  rw [latestSummary?, hlatest]
  cases hnewest : (m.newest? access).outcome with
  | mk result log =>
    cases result with
    | error e =>
      rw [Serving.outcome_bind_error hnewest]
      rfl
    | ok summary? =>
      rw [Serving.outcome, Serving.run_bind_ok hnewest]
      cases summary? <;> rfl

theorem versionList?_of_located (h : Located r space name provider m) :
    r.versionList? access space name provider =
      (m.versions? access).map (VersionList.of r.hostname.text m.coordinate) := by
  rw [versionList?, listVersions, Serving.outcome_bind_ok (locate_of_located h)]
  have hreading := m.reading access
  generalize m.versions? access = versions? at hreading
  cases hreading with
  | unopened store =>
    rw [Serving.outcome_bind_error (ServedModule.store_of_error store)]
    rfl
  | unread store unread =>
    rw [Serving.outcome_bind_ok (ServedModule.store_of_ok store),
      Catalog.listVersions_of_error unread, Serving.outcome_bind_error (m.require_error _)]
    rfl
  | read store read =>
    rw [Serving.outcome_bind_ok (ServedModule.store_of_ok store), Catalog.listVersions_eq read,
      Serving.outcome_bind_ok (m.require_ok _)]
    rfl

/-- How a request is answered that is served with a value in the body. -/
theorem reply_of_body {α : Type} {op : Operation String} (x : Serving α) (body : α → Json.Value)
    (h : r.serve access patience op = do return .json (body (← x))) :
    (∀ a, x.outcome.1.toOption = some a → (r.reply access patience op).1 = .json (body a)) ∧
      (x.outcome.1.toOption = none → (r.reply access patience op).1.status ≠ 200) := by
  cases hx : x.outcome with
  | mk result log =>
    cases result with
    | error e =>
      have hserve : (r.serve access patience op).outcome = (.error e, log) := by
        rw [h, Serving.outcome_bind_error hx]
      rw [reply_of_error hserve]
      refine ⟨nofun, fun _ => ?_⟩
      change e.status ≠ 200
      cases e <;> decide
    | ok a =>
      have hserve : (r.serve access patience op).outcome = (.ok (.json (body a)), log) := by
        rw [h]
        exact Serving.run_bind_ok hx
      rw [reply_of_ok hserve]
      refine ⟨?_, nofun⟩
      rintro _ ⟨⟩
      rfl

theorem reply_latest (patience : Option Nat) :
    (∀ s, r.latestSummary? access space name provider = some s →
      (r.reply access patience (.latest space name provider)).1 = .json s.toJson) ∧
    (r.latestSummary? access space name provider = none →
      (r.reply access patience (.latest space name provider)).1.status ≠ 200) :=
  reply_of_body (r.getLatest access space name provider) ModuleSummary.toJson rfl

theorem reply_everyVersion (patience : Option Nat) :
    (∀ l, r.versionList? access space name provider = some l →
      (r.reply access patience (.everyVersion space name provider)).1 = .json l.toJson) ∧
    (r.versionList? access space name provider = none →
      (r.reply access patience (.everyVersion space name provider)).1.status ≠ 200) :=
  reply_of_body (r.listVersions access space name provider) VersionList.toJson rfl

end Registry

theorem Catalog.listed_of_mem_ofNames {names : List String} {v : Version}
    (h : v ∈ ofNames names) : Listed names v := by
  have hnamed := List.mem_of_find?_eq_some (find?_of_mem_ofNames h)
  obtain ⟨name, hname, hv⟩ := List.mem_filterMap.mp hnamed
  exact ⟨name, hname, v, versionOfRef?_eq_some_iff.mp hv, Version.equivalent_refl v⟩

/-- The summary of a version, by its parts. -/
theorem ModuleSummary.of_eq {space name provider : String} {c : Coordinate}
    (h : Coordinate.make space name provider = .ok c) (v : Version) :
    of c v = ⟨space ++ "/" ++ name ++ "/" ++ provider ++ "/" ++ v.render, space, name, provider,
      v.render⟩ := by
  obtain ⟨rfl, rfl, rfl⟩ := Coordinate.parts_of_make h
  rfl

namespace Registry

variable {r : Registry} {access : StoreAccess} {space name provider : String} {m : ServedModule}

/-- Every version that is listed can be asked for. -/
theorem reply_oneVersion (patience : Option Nat) (h : Located r space name provider m)
    {versions : List Version} {v : Version} (hread : m.versions? access = some versions)
    (hv : v ∈ versions) :
    (r.reply access patience (.oneVersion space name provider v.render)).1 =
      .json (ModuleSummary.of m.coordinate v).toJson := by
  have hreading := m.reading access
  rw [hread] at hreading
  cases hreading with
  | read store read =>
    have hasks : Asks r (.oneVersion space name provider v.render) m := by
      refine ⟨⟨space, name, provider, rfl, h⟩, ?_⟩
      rintro text ⟨⟩
      exact ⟨v, v.parse_render⟩
    have hserve := serve_of_opened patience hasks (.some v.parse_render) store
    rw [finish_oneVersion read (Catalog.listed_of_mem_ofNames hv)] at hserve
    rw [reply_of_ok hserve]

end Registry

/-! ## The agreement -/

/-- The requests about one module are answered in agreement with each other. -/
structure Agreeing (r : Registry) (access : StoreAccess) (patience : Option Nat)
    (space name provider : String) : Prop where
  summary : ∀ s, r.latestSummary? access space name provider = some s →
    (r.reply access patience (.latest space name provider)).1 = .json s.toJson
  noSummary : r.latestSummary? access space name provider = none →
    (r.reply access patience (.latest space name provider)).1.status ≠ 200
  list : ∀ l, r.versionList? access space name provider = some l →
    (r.reply access patience (.everyVersion space name provider)).1 = .json l.toJson
  noList : r.versionList? access space name provider = none →
    (r.reply access patience (.everyVersion space name provider)).1.status ≠ 200
  /-- There is a latest version exactly if there are versions. -/
  latest_iff : (r.reply access patience (.latest space name provider)).1.status = 200 ↔
    ∃ l, r.versionList? access space name provider = some l ∧ l.texts ≠ []
  /-- The latest version comes first. -/
  first : ∀ s, r.latestSummary? access space name provider = some s →
    ∃ l, r.versionList? access space name provider = some l ∧ l.texts.head? = some s.version
  /-- Each version can be asked for under its text. -/
  each : ∀ l, r.versionList? access space name provider = some l → ∀ text ∈ l.texts,
    (r.reply access patience (.oneVersion space name provider text)).1 =
      .json (ModuleSummary.toJson ⟨space ++ "/" ++ name ++ "/" ++ provider ++ "/" ++ text, space,
        name, provider, text⟩)
  /-- A path can spell this text with its own characters. -/
  routed : ∀ l, r.versionList? access space name provider = some l → ∀ text ∈ l.texts,
    ∀ a b c, Operation.readText .space a = .ok space → Operation.readText .name b = .ok name →
      Operation.readText .provider c = .ok provider →
      Operation.ofSegments? [a, b, c, ascii text] = some (.oneVersion a b c (ascii text)) ∧
        r.answer access patience (.oneVersion a b c (ascii text)) =
          r.reply access patience (.oneVersion space name provider text)

section Agreement

variable {r : Registry} {access : StoreAccess} {space name provider : String} {m : ServedModule}

/-- What a list of versions that is answered with holds. -/
theorem texts_of_versionList? {l : VersionList} (h : Located r space name provider m)
    (hl : r.versionList? access space name provider = some l) :
    ∃ versions, m.versions? access = some versions ∧ l.texts = versions.map Version.render := by
  rw [Registry.versionList?_of_located h] at hl
  obtain ⟨versions, hread, rfl⟩ := Option.map_eq_some_iff.mp hl
  exact ⟨versions, hread, VersionList.texts_of _ _ _⟩

theorem latestSummary?_eq_some_iff (h : Located r space name provider m) {s : ModuleSummary} :
    r.latestSummary? access space name provider = some s ↔
      ∃ v rest, m.versions? access = some (v :: rest) ∧ s = ModuleSummary.of m.coordinate v := by
  rw [Registry.latestSummary?_of_located h, m.newest?_eq access, Option.bind_eq_some_iff]
  constructor
  · rintro ⟨versions, hread, hhead⟩
    cases versions with
    | nil => cases hhead
    | cons v rest => exact ⟨v, rest, hread, (Option.some.inj hhead).symm⟩
  · rintro ⟨v, rest, hread, rfl⟩
    exact ⟨v :: rest, hread, rfl⟩

theorem versionList?_of_versions? {versions : List Version} (h : Located r space name provider m)
    (hread : m.versions? access = some versions) :
    ∃ l, r.versionList? access space name provider = some l ∧
      l.texts = versions.map Version.render := by
  refine ⟨_, ?_, VersionList.texts_of r.hostname.text m.coordinate versions⟩
  rw [Registry.versionList?_of_located h, hread]
  rfl

/-- A latest version is the first of the list of versions. -/
theorem head?_texts_of_latestSummary? (h : Located r space name provider m) {s : ModuleSummary}
    (hlatest : r.latestSummary? access space name provider = some s) :
    ∃ l, r.versionList? access space name provider = some l ∧ l.texts.head? = some s.version := by
  obtain ⟨v, rest, hread, rfl⟩ := (latestSummary?_eq_some_iff h).mp hlatest
  obtain ⟨l, hl, htexts⟩ := versionList?_of_versions? h hread
  refine ⟨l, hl, ?_⟩
  rw [htexts]
  rfl

theorem exists_latestSummary?_iff (h : Located r space name provider m) :
    (∃ s, r.latestSummary? access space name provider = some s) ↔
      ∃ l, r.versionList? access space name provider = some l ∧ l.texts ≠ [] := by
  constructor
  · rintro ⟨s, hlatest⟩
    obtain ⟨l, hl, hhead⟩ := head?_texts_of_latestSummary? h hlatest
    refine ⟨l, hl, ?_⟩
    intro hnil
    rw [hnil] at hhead
    cases hhead
  · rintro ⟨l, hl, hne⟩
    obtain ⟨versions, hread, htexts⟩ := texts_of_versionList? h hl
    cases versions with
    | nil => exact absurd htexts hne
    | cons v rest => exact ⟨_, (latestSummary?_eq_some_iff h).mpr ⟨v, rest, hread, rfl⟩⟩

theorem status_reply_latest_iff (patience : Option Nat) :
    (r.reply access patience (.latest space name provider)).1.status = 200 ↔
      ∃ s, r.latestSummary? access space name provider = some s := by
  obtain ⟨hsummary, hnoSummary⟩ := Registry.reply_latest patience
  constructor
  · intro hstatus
    exact Option.ne_none_iff_exists'.mp fun hnone => hnoSummary hnone hstatus
  · rintro ⟨s, hlatest⟩
    rw [hsummary s hlatest]
    rfl

/-- The texts of a list of versions are those of versions in the store. -/
theorem exists_version_of_mem_texts {l : VersionList} {text : String}
    (h : Located r space name provider m)
    (hl : r.versionList? access space name provider = some l) (hmem : text ∈ l.texts) :
    ∃ versions v, m.versions? access = some versions ∧ v ∈ versions ∧ v.render = text := by
  obtain ⟨versions, hread, htexts⟩ := texts_of_versionList? h hl
  rw [htexts] at hmem
  obtain ⟨v, hv, htext⟩ := List.mem_map.mp hmem
  exact ⟨versions, v, hread, hv, htext⟩

/-- The requests about a configured module are answered from one list of versions. -/
theorem agreeing_of_located (patience : Option Nat) (h : Located r space name provider m) :
    Agreeing r access patience space name provider := by
  obtain ⟨hsummary, hnoSummary⟩ := Registry.reply_latest patience
  obtain ⟨hlist, hnoList⟩ := Registry.reply_everyVersion patience
  refine ⟨hsummary, hnoSummary, hlist, hnoList,
    (status_reply_latest_iff patience).trans (exists_latestSummary?_iff h),
    fun s hlatest => head?_texts_of_latestSummary? h hlatest, ?_, ?_⟩
  · intro l hl text hmem
    obtain ⟨versions, v, hread, hv, rfl⟩ := exists_version_of_mem_texts h hl hmem
    rw [Registry.reply_oneVersion patience h hread hv, ModuleSummary.of_eq h.coordinate]
  · intro l hl text hmem a b c ha hb hc
    obtain ⟨versions, v, hread, hv, rfl⟩ := exists_version_of_mem_texts h hl hmem
    refine ⟨Operation.ofSegments?_render a b c v, Registry.answer_of_decode ?_⟩
    rw [Operation.decode, Operation.mapM, ha, hb, hc, v.readText_render .version]
    rfl

/-- The list of providers holds what the requests for each of them are answered with. -/
theorem reply_providers (access : StoreAccess) (patience : Option Nat)
    {files : List (Bytes × ConfigFile)} {c : Config} (hc : Config.merge files = .ok c)
    {providers : Table String Location} (hp : c.modules.providers? space name = some providers) :
    ((Registry.ofConfig c).reply access patience (.providers space name)).1 =
      .json (ModuleList.toJson ⟨providers.keys.filterMap
        ((Registry.ofConfig c).latestSummary? access space name), none⟩) := by
  obtain ⟨hascending, hsegments⟩ := (Config.wellFormed_of_merge hc).providers hp
  have hlist := Registry.listProviders_of_some (r := .ofConfig c) access hp
  have hmodules : (Registry.modulesIn space name providers).filterMap
      (fun m => (m.newest? access).outcome.1.toOption.join) =
        providers.keys.filterMap ((Registry.ofConfig c).latestSummary? access space name) := by
    rw [Registry.modulesIn, Table.keys, List.filterMap_filterMap, List.filterMap_map]
    refine List.filterMap_congr fun item hitem => ?_
    have hmake := Coordinate.make_of_isSegment (hsegments item hitem)
    have hlookup : c.modules.lookup space name item.1 = some item.2 := by
      rw [ModuleMap.lookup_of_providers hp]
      exact hascending.lookup_of_mem hitem
    have hlocated : Located (.ofConfig c) space name item.1 ⟨_, item.2⟩ := ⟨hlookup, hmake⟩
    simp only [hmake, Function.comp_apply, Registry.latestSummary?_of_located hlocated]
    rfl
  rw [← hmodules]
  exact (Registry.reply_of_body ((Registry.ofConfig c).listProviders access space name)
    ModuleList.toJson rfl).1 _ (by rw [hlist]; rfl)

theorem mem_keys_iff {files : List (Bytes × ConfigFile)} {c : Config}
    (hc : Config.merge files = .ok c) {providers : Table String Location}
    (hp : c.modules.providers? space name = some providers) :
    provider ∈ providers.keys ↔
      ∃ location, c.modules.lookup space name provider = some location := by
  rw [ModuleMap.lookup_of_providers hp, Table.keys, List.mem_map]
  constructor
  · rintro ⟨⟨_, location⟩, hitem, rfl⟩
    exact ⟨location, ((Config.wellFormed_of_merge hc).providers hp).1.lookup_of_mem hitem⟩
  · rintro ⟨location, hlookup⟩
    exact ⟨_, Table.mem_of_lookup_eq_some hlookup, rfl⟩

end Agreement

/-- All requests about the modules of a configuration are answered in agreement with each other, and
the list of providers holds, in ascending order, what each of them is answered with. -/
theorem endpoints_agree {files : List (Bytes × ConfigFile)} {c : Config}
    (hc : Config.merge files = .ok c) (access : StoreAccess) (patience : Option Nat)
    (space name : String) :
    (∀ providers, c.modules.providers? space name = some providers →
      (providers.keys.Pairwise fun a b => compare a b = .lt) ∧
      (∀ provider, provider ∈ providers.keys ↔
        ∃ location, c.modules.lookup space name provider = some location) ∧
      ((Registry.ofConfig c).reply access patience (.providers space name)).1 =
        .json (ModuleList.toJson ⟨providers.keys.filterMap
          ((Registry.ofConfig c).latestSummary? access space name), none⟩)) ∧
    ∀ provider location, c.modules.lookup space name provider = some location →
      Agreeing (.ofConfig c) access patience space name provider := by
  constructor
  · intro providers hp
    have hascending := ((Config.wellFormed_of_merge hc).providers hp).1
    exact ⟨List.pairwise_map.mpr hascending, fun provider => mem_keys_iff hc hp,
      reply_providers access patience hc hp⟩
  · intro provider location hlookup
    obtain ⟨m, hm⟩ := (exists_located_iff hc).mpr ⟨location, hlookup⟩
    exact agreeing_of_located patience hm

/-- Only the first provider's repository can be opened. -/
def openFirst : StoreAccess := fun path =>
  if path = ascii "w.git" then .ok (oneVersion (.ofNat 1)).view else .error .damaged

theorem versions?_firstProvider : firstProvider.versions? openFirst = some [.release 1 0 0] := by
  have hclass : Catalog.ofNames ["refs/tags/v1.0.0"] = [.release 1 0 0] := by
    rw [Catalog.ofNames_of_descending (by decide)]
    rfl
  have hnames : (oneVersion (.ofNat 1)).view.referenceNames = .ok ["refs/tags/v1.0.0"] := rfl
  have hlist := Catalog.listVersions_eq hnames
  rw [hclass] at hlist
  change (Catalog.listVersions (oneVersion (.ofNat 1)).view).toOption = _
  rw [hlist]
  rfl

theorem endpoints_agree_twoProviders :
    Config.merge twoProviders = .ok mergedProviders ∧
    ((Registry.ofConfig mergedProviders).reply openFirst none (.providers "a" "b")).1 =
      .json (ModuleList.toJson ⟨[⟨"a/b/c/1.0.0", "a", "b", "c", "1.0.0"⟩], none⟩) ∧
    ((Registry.ofConfig mergedProviders).reply openFirst none (.latest "a" "b" "d")).1.status ≠
      200 ∧
    ((Registry.ofConfig mergedProviders).reply openFirst none (.oneVersion "a" "b" "c" "1.0.0")).1 =
      .json (ModuleSummary.toJson ⟨"a/b/c/1.0.0", "a", "b", "c", "1.0.0"⟩) := by
  obtain ⟨hproviders, hmodules⟩ := endpoints_agree merge_twoProviders openFirst none "a" "b"
  have hsummary : (Registry.ofConfig mergedProviders).latestSummary? openFirst "a" "b" "c" =
      some ⟨"a/b/c/1.0.0", "a", "b", "c", "1.0.0"⟩ :=
    (latestSummary?_eq_some_iff located_firstProvider).mpr ⟨_, [], versions?_firstProvider, rfl⟩
  obtain ⟨l, hversions, htexts⟩ :=
    versionList?_of_versions? located_firstProvider versions?_firstProvider
  have hunopened : (Registry.ofConfig mergedProviders).latestSummary? openFirst "a" "b" "d" =
      none := rfl
  obtain ⟨-, -, hlist⟩ := hproviders _ rfl
  refine ⟨merge_twoProviders, ?_, (hmodules "d" _ rfl).noSummary hunopened,
    (hmodules "c" _ rfl).each l hversions "1.0.0" ?_⟩
  · rw [hlist]
    simp [Table.keys, hsummary, hunopened]
  · rw [htexts]
    exact List.mem_cons_self

end TagRegistry
