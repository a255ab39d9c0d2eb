import TagRegistry.Proofs.Agreement
import TagRegistry.Proofs.SameContent
import TagRegistry.Proofs.ServedAlike

/-! Where modules are stored does not show.

Two registries with the same modules serve alike if their stores have the same content, module by
module, wherever these are and whatever they fail with. -/

namespace TagRegistry

open Bytes (ascii)

/-! ## Related lists and options -/

/-- Two lists, each in its own order, relate entry by entry if every entry of either has a
counterpart in the other, and counterparts are in the same order. -/
theorem forall₂_of_pairwise {α β : Type} {lt : α → α → Prop} {lt' : β → β → Prop}
    {R : α → β → Prop} {l : List α} {l' : List β} (h : l.Pairwise lt) (h' : l'.Pairwise lt')
    (hasymm : ∀ b₁ b₂, lt' b₁ b₂ → ¬lt' b₂ b₁)
    (horder : ∀ a₁ a₂ b₁ b₂, R a₁ b₁ → R a₂ b₂ → (lt a₁ a₂ ↔ lt' b₁ b₂))
    (hleft : ∀ a ∈ l, ∃ b ∈ l', R a b) (hright : ∀ b ∈ l', ∃ a ∈ l, R a b) :
    List.Forall₂ R l l' := by
  have hirrefl (b : β) : ¬lt' b b := fun hb => hasymm b b hb hb
  induction l generalizing l' with
  | nil =>
    cases l' with
    | nil => exact .nil
    | cons b rest' =>
      obtain ⟨a, ha, -⟩ := hright b List.mem_cons_self
      cases ha
  | cons a rest ih =>
    cases l' with
    | nil =>
      obtain ⟨b, hb, -⟩ := hleft a List.mem_cons_self
      cases hb
    | cons b rest' =>
      obtain ⟨hfirst, hrest⟩ := List.pairwise_cons.mp h
      obtain ⟨hfirst', hrest'⟩ := List.pairwise_cons.mp h'
      -- If the first entries had their counterparts further on, these would be in reverse order.
      have hab : R a b := by
        obtain ⟨b₂, hb₂, hR₂⟩ := hleft a List.mem_cons_self
        obtain ⟨a₂, ha₂, hR⟩ := hright b List.mem_cons_self
        rcases List.mem_cons.mp hb₂ with rfl | hb₂
        · exact hR₂
        · rcases List.mem_cons.mp ha₂ with rfl | ha₂
          · exact hR
          · have hback := (horder a a₂ b₂ b hR₂ hR).mp (hfirst a₂ ha₂)
            exact absurd (hfirst' b₂ hb₂) (hasymm b₂ b hback)
      refine .cons hab (ih hrest hrest' (fun a₂ ha₂ => ?_) fun b₂ hb₂ => ?_)
      · obtain ⟨b₂, hb₂, hR⟩ := hleft a₂ (List.mem_cons_of_mem a ha₂)
        rcases List.mem_cons.mp hb₂ with rfl | hb₂
        · exact absurd ((horder a a₂ b₂ b₂ hab hR).mp (hfirst a₂ ha₂)) (hirrefl b₂)
        · exact ⟨b₂, hb₂, hR⟩
      · obtain ⟨a₂, ha₂, hR⟩ := hright b₂ (List.mem_cons_of_mem b hb₂)
        rcases List.mem_cons.mp ha₂ with rfl | ha₂
        · have hself := (horder a₂ a₂ b b₂ hab hR).mpr (hfirst' b₂ hb₂)
          exact absurd ((horder a₂ a₂ b b hab hab).mp hself) (hirrefl b)
        · exact ⟨a₂, ha₂, hR⟩

theorem rel_imp {α β : Type} {R S : α → β → Prop} {a? : Option α} {b? : Option β}
    (h : Option.Rel R a? b?) (hRS : ∀ a b, R a b → S a b) : Option.Rel S a? b? := by
  cases h with
  | none => exact .none
  | some hab => exact .some (hRS _ _ hab)

theorem bind_rel {α β γ δ : Type} {R : α → β → Prop} {S : γ → δ → Prop} {a? : Option α}
    {b? : Option β} {f : α → Option γ} {g : β → Option δ} (h : Option.Rel R a? b?)
    (hfg : ∀ a b, R a b → Option.Rel S (f a) (g b)) : Option.Rel S (a?.bind f) (b?.bind g) := by
  cases h with
  | none => exact .none
  | some hab => exact hfg _ _ hab

theorem lookup_cons_rel {α : Type} {R : α → α → Prop} {t t' : Table String α} {first key : String}
    {a b : α} (hab : R a b) (h : Option.Rel R (List.lookup key t) (List.lookup key t')) :
    Option.Rel R (List.lookup key ((first, a) :: t)) (List.lookup key ((first, b) :: t')) := by
  rw [List.lookup_cons, List.lookup_cons]
  cases key == first with
  | true => exact .some hab
  | false => exact h

theorem lookup_rel {α : Type} {R : α → α → Prop} {t t' : Table String α}
    (h : List.Forall₂ (fun a b => a.1 = b.1 ∧ R a.2 b.2) t t') (key : String) :
    Option.Rel R (t.lookup key) (t'.lookup key) := by
  induction h with
  | nil => exact .none
  | @cons a b t t' hfirst _ ih =>
    obtain ⟨k, l⟩ := a
    obtain ⟨k', l'⟩ := b
    obtain ⟨rfl, hl⟩ := hfirst
    exact lookup_cons_rel hl ih

/-! ## Stores and modules -/

/-- Stores that serve alike. If requests list versions, these have to be the same. -/
structure SimilarStores (lists : Prop) (s s' : ObjectStore) : Prop extends SameSnapshots s s' where
  listed (v : Version) : (Catalog.hasVersion s v).toOption = (Catalog.hasVersion s' v).toOption
  versions : lists → (Catalog.listVersions s).toOption = (Catalog.listVersions s').toOption

/-- Stores with the same content serve alike. -/
theorem SameContent.similar {s s' : ObjectStore} (h : SameContent s s') (lists : Prop) :
    SimilarStores lists s s' where
  toSameSnapshots := h.toSameSnapshots
  listed _ := toOption_bind_congr h.names _
  versions _ := toOption_bind_congr h.names _

/-- The stores at two locations can both be opened and serve alike, or neither can be opened. -/
def SimilarAt (lists : Prop) (access access' : StoreAccess) (l l' : Location) : Prop :=
  Option.Rel (SimilarStores lists) (access l.gitDir).toOption (access' l'.gitDir).toOption

/-- A module and its counterpart. -/
structure SimilarModules (lists : Prop) (access access' : StoreAccess) (m m' : ServedModule) :
    Prop where
  coordinate : m.coordinate = m'.coordinate
  location : SimilarAt lists access access' m.location m'.location

namespace ServedModule

open Serving (SameEnd alike_pure alike_throw)

variable {lists : Prop} {access access' : StoreAccess} {m m' : ServedModule} {s s' : ObjectStore}

theorem alike_require_eq {α : Type} (m m' : ServedModule) {answer answer' : Except StoreError α}
    (h : answer.toOption = answer'.toOption) :
    SameEnd Eq (m.require answer) (m'.require answer') := by
  obtain ⟨a, rfl, rfl⟩ | ⟨c, d, rfl, rfl⟩ := toOption_eq_cases h
  · exact m.alike_require m' (.some rfl)
  · exact m.alike_require m' .none

theorem alike_store (h : SimilarModules lists access access' m m') :
    SameEnd (SimilarStores lists) (m.store access) (m'.store access') :=
  m.alike_require m' h.location

theorem alike_latest? (h : SimilarModules lists access access' m m') (hs : SimilarStores lists s s')
    (hlists : lists) : SameEnd Eq (m.latest? s) (m'.latest? s') := by
  have hversion : (Catalog.latestVersion? s).toOption = (Catalog.latestVersion? s').toOption :=
    toOption_bind_congr (hs.versions hlists) _
  rw [latest?, latest?, h.coordinate]
  refine (alike_require_eq m m' hversion).bind fun v v' hv => alike_pure ?_
  rw [hv]

theorem alike_checkListed (m m' : ServedModule) (hs : SimilarStores lists s s') (v : Version) :
    SameEnd Eq (m.checkListed s v) (m'.checkListed s' v) := by
  refine (alike_require_eq m m' (hs.listed v)).bind ?_
  rintro listed _ rfl
  cases listed with
  | true => exact alike_pure rfl
  | false => exact alike_throw .notFound

theorem alike_treeOf (m m' : ServedModule) (hs : SimilarStores lists s s') (v : Version) :
    SameEnd Eq (m.treeOf s v) (m'.treeOf s' v) := by
  refine (alike_checkListed m m' hs v).bind fun _ _ _ => ?_
  rw [Catalog.resolveTree, Catalog.resolveTree, Catalog.resolveCommit, Catalog.resolveCommit]
  obtain ⟨commit, hpeel, hpeel'⟩ | ⟨c, d, hpeel, hpeel', habsent⟩ := hs.peel_cases v.tagRef
  · rw [hpeel, hpeel']
    exact alike_pure rfl
  · rw [hpeel, hpeel']
    change SameEnd Eq (if c.isRefNotFound then throw .notFound else m.require (.error c))
      (if d.isRefNotFound then throw .notFound else m'.require (.error d))
    rw [habsent]
    split
    · exact alike_throw .notFound
    · exact m.alike_require m' .none

theorem alike_checkTree (m m' : ServedModule) (hs : SimilarStores lists s s') (v : Version)
    (supplied : String) : SameEnd Eq (m.checkTree s v supplied) (m'.checkTree s' v supplied) := by
  refine (alike_treeOf m m' hs v).bind ?_
  rintro tree _ rfl
  split
  · exact alike_pure rfl
  · exact alike_throw .notFound

end ServedModule

/-! ## Registries -/

/-- Does the answer depend on which versions there are, and how they are spelled? -/
def Operation.listsVersions {α : Type} : Operation α → Bool
  | .providers .. | .latest .. | .everyVersion .. => true
  | _ => false

/-- Is a target the path of such an operation? -/
def Operation.listsVersionsAt (target : Bytes) : Bool :=
  ((pathOf? target).bind ofPath?).any listsVersions

theorem Operation.listsVersions_of_decode {raw : Operation Bytes} {op : Operation String}
    (h : raw.decode = .ok op) : op.listsVersions = raw.listsVersions := by
  cases raw
  all_goals
    simp only [decode, mapM, bind, Except.bind, pure, Except.pure] at h
    repeat' split at h
    all_goals cases h
    rfl

/-- Registries with the same modules, whose stores serve alike. -/
structure SimilarRegistries (lists : Prop) (access access' : StoreAccess) (r r' : Registry) :
    Prop where
  hostname : r.hostname = r'.hostname
  providers (space name : String) :
    Option.Rel (List.Forall₂ fun a b => a.1 = b.1 ∧ SimilarAt lists access access' a.2 b.2)
      (r.modules.providers? space name) (r'.modules.providers? space name)

namespace Registry

open Serving (SameEnd alike_pure alike_throw)

variable {lists : Prop} {access access' : StoreAccess} {r r' : Registry}

theorem alike_locate (h : SimilarRegistries lists access access' r r')
    (space name provider : String) :
    SameEnd (SimilarModules lists access access') (r.locate space name provider)
      (r'.locate space name provider) := by
  have hlookup : Option.Rel (SimilarAt lists access access')
      (r.modules.lookup space name provider) (r'.modules.lookup space name provider) := by
    rw [ModuleMap.lookup, ModuleMap.lookup]
    exact bind_rel (h.providers space name) fun t t' ht => lookup_rel ht provider
  rw [locate, locate]
  generalize r.modules.lookup space name provider = location? at hlookup
  generalize r'.modules.lookup space name provider = location?' at hlookup
  cases hlookup with
  | none => exact alike_throw .notFound
  | some hl =>
    cases Coordinate.make space name provider with
    | ok coordinate => exact alike_pure ⟨rfl, hl⟩
    | error e => exact alike_throw .notFound

theorem alike_modulesOf (h : SimilarRegistries lists access access' r r') (space name : String) :
    SameEnd (List.Forall₂ (SimilarModules lists access access')) (r.modulesOf space name)
      (r'.modulesOf space name) := by
  have hproviders := h.providers space name
  rw [modulesOf, modulesOf]
  generalize r.modules.providers? space name = t? at hproviders
  generalize r'.modules.providers? space name = t?' at hproviders
  cases hproviders with
  | none => exact alike_throw .notFound
  | some ht =>
    refine alike_pure ?_
    induction ht with
    | nil => exact .nil
    | @cons a b t t' hfirst _ ih =>
      obtain ⟨k, l⟩ := a
      obtain ⟨k', l'⟩ := b
      obtain ⟨rfl, hl⟩ := hfirst
      rw [List.filterMap_cons, List.filterMap_cons]
      simp only
      cases Coordinate.make space name k with
      | ok coordinate => exact .cons ⟨rfl, hl⟩ ih
      | error e => exact ih

theorem alike_readVersion (raw : String) : SameEnd Eq (readVersion raw) (readVersion raw) := by
  rw [readVersion]
  cases Version.parse raw with
  | ok v => exact alike_pure rfl
  | error e => exact alike_throw .notFound

theorem alike_listProviders (h : SimilarRegistries lists access access' r r') (hlists : lists)
    (space name : String) :
    SameEnd Eq (r.listProviders access space name) (r'.listProviders access' space name) := by
  have heach (m m' : ServedModule) (hm : SimilarModules lists access access' m m') :
      SameEnd (Option.Rel Eq) (Serving.attempt? do m.latest? (← m.store access))
        (Serving.attempt? do m'.latest? (← m'.store access')) :=
    ((ServedModule.alike_store hm).bind fun s s' hs =>
      ServedModule.alike_latest? hm hs hlists).attempt?
  refine (alike_modulesOf h space name).bind fun modules modules' hmodules => ?_
  refine (Serving.alike_mapM hmodules heach).bind fun found found' hfound => alike_pure ?_
  have hsame : found = found' := by
    refine List.forall₂_eq_eq_eq ▸ hfound.imp fun a b hab => ?_
    cases hab with
    | none => rfl
    | some hab => rw [hab]
  rw [hsame]

theorem archiveResponse_eq {m m' : ServedModule} {s s' : ObjectStore}
    (hm : m.coordinate = m'.coordinate) (hs : SameSnapshots s s') (v : Version)
    (patience : Option Nat) :
    (archiveResponse m s v patience).1 = (archiveResponse m' s' v patience).1 := by
  have hsent : (m.sendArchive s v (.fresh patience)).1.sent =
      (m'.sendArchive s' v (.fresh patience)).1.sent := by
    rw [m.sendArchive_sent, m'.sendArchive_sent, Archive.body_eq_of_sameSnapshots hs]
  rw [archiveResponse, archiveResponse, hm]
  split
  · simp only [hsent]
  · rfl

/-- A request for one version is served alike if it goes on alike with similar stores. -/
theorem alike_opening {α β : Type} {R : α → β → Prop}
    {f : ServedModule → ObjectStore → Version → Serving α}
    {g : ServedModule → ObjectStore → Version → Serving β}
    (h : SimilarRegistries lists access access' r r') (space name provider version : String)
    (hfg : ∀ m m' s s' v, SimilarModules lists access access' m m' → SimilarStores lists s s' →
      SameEnd R (f m s v) (g m' s' v)) :
    SameEnd R (r.opening access space name provider version f)
      (r'.opening access' space name provider version g) := by
  refine (alike_locate h space name provider).bind fun m m' hm => ?_
  refine (alike_readVersion version).bind ?_
  rintro v _ rfl
  exact (ServedModule.alike_store hm).bind fun s s' hs => hfg m m' s s' v hm hs

/-- Every operation ends alike, if the stores are similar enough for it. -/
theorem alike_serve (h : SimilarRegistries lists access access' r r') (patience : Option Nat)
    {op : Operation String} (hlists : op.listsVersions = true → lists) :
    SameEnd Eq (r.serve access patience op) (r'.serve access' patience op) := by
  cases op with
  | discovery => exact alike_pure rfl
  | providers space name =>
    refine (alike_listProviders h (hlists rfl) space name).bind ?_
    rintro list _ rfl
    exact alike_pure rfl
  | latest space name provider =>
    refine SameEnd.bind (R := Eq) ?_ ?_
    · refine (alike_locate h space name provider).bind fun m m' hm => ?_
      refine (ServedModule.alike_store hm).bind fun s s' hs => ?_
      refine (ServedModule.alike_latest? hm hs (hlists rfl)).bind ?_
      rintro summary? _ rfl
      cases summary? with
      | some summary => exact alike_pure rfl
      | none => exact alike_throw .notFound
    · rintro summary _ rfl
      exact alike_pure rfl
  | everyVersion space name provider =>
    refine SameEnd.bind (R := Eq) ?_ ?_
    · refine (alike_locate h space name provider).bind fun m m' hm => ?_
      refine (ServedModule.alike_store hm).bind fun s s' hs => ?_
      refine (ServedModule.alike_require_eq m m' (hs.versions (hlists rfl))).bind ?_
      rintro versions _ rfl
      refine alike_pure ?_
      rw [h.hostname, hm.coordinate]
    · rintro list _ rfl
      exact alike_pure rfl
  | oneVersion space name provider version =>
    refine SameEnd.bind (R := Eq) (alike_opening h space name provider version ?_) ?_
    · intro m m' s s' v hm hs
      refine (ServedModule.alike_checkListed m m' hs v).bind fun _ _ _ => alike_pure ?_
      rw [hm.coordinate]
    · rintro summary _ rfl
      exact alike_pure rfl
  | location space name provider version =>
    refine SameEnd.bind (R := Eq) (alike_opening h space name provider version ?_) ?_
    · exact fun m m' s s' v _ hs => ServedModule.alike_treeOf m m' hs v
    · rintro tree _ rfl
      exact alike_pure rfl
  | archive space name provider version treeId =>
    refine SameEnd.bind (R := fun a b => a.1.coordinate = b.1.coordinate ∧
      SameSnapshots a.2.1 b.2.1 ∧ a.2.2 = b.2.2)
      (alike_opening h space name provider version ?_) ?_
    · intro m m' s s' v hm hs
      exact (ServedModule.alike_checkTree m m' hs v treeId).bind fun _ _ _ =>
        alike_pure ⟨hm.coordinate, hs.toSameSnapshots, rfl⟩
    · rintro ⟨m, s, v⟩ ⟨m', s', _⟩ ⟨hm, hs, rfl⟩
      exact (Serving.alike_forM_log _ _).bind fun _ _ _ =>
        alike_pure (archiveResponse_eq hm hs v patience)

theorem answer_eq (h : SimilarRegistries lists access access' r r') (patience : Option Nat)
    {raw : Operation Bytes} (hlists : raw.listsVersions = true → lists) :
    (r.answer access patience raw).1 = (r'.answer access' patience raw).1 := by
  rw [answer, answer]
  cases hdecode : raw.decode with
  | error parameter => rfl
  | ok op =>
    have hserve : SameEnd Eq (r.serve access patience op) (r'.serve access' patience op) :=
      alike_serve h patience fun hop =>
        hlists (Operation.listsVersions_of_decode hdecode ▸ hop)
    have houtcome := hserve.outcome
    simp only
    generalize (r.serve access patience op).outcome = ended at houtcome
    generalize (r'.serve access' patience op).outcome = ended' at houtcome
    obtain ⟨result, log⟩ := ended
    obtain ⟨result', log'⟩ := ended'
    obtain rfl : result = result' := houtcome
    cases result <;> rfl

/-- Requests are answered alike, if the stores are similar enough for them. -/
theorem respond_eq (h : SimilarRegistries lists access access' r r') (method : String)
    (target : Bytes) (hlists : Operation.listsVersionsAt target = true → lists) :
    (r.respond access method target).1 = (r'.respond access' method target).1 := by
  rw [respond, respond]
  rw [Operation.listsVersionsAt] at hlists
  cases hpath : Operation.pathOf? target with
  | none => rfl
  | some path =>
    rw [hpath, Option.bind_some] at hlists
    simp only
    rw [respondAt, respondAt]
    cases hraw : Operation.ofPath? path with
    | none => rfl
    | some raw =>
      rw [hraw, Option.any_some] at hlists
      have hanswer (patience : Option Nat) := answer_eq h patience hlists
      simp only
      split
      · exact hanswer none
      · split
        · exact congrArg Response.withoutBody (hanswer (some 0))
        · rfl

end Registry

/-! ## Configurations -/

namespace Table

variable {α : Type} {R : α → α → Prop} {t t' : Table String α}

theorem alter_ne_nil {key : String} {f : Option α → α} : alter key f t ≠ [] := by
  unfold alter
  repeat' split
  all_goals exact List.cons_ne_nil _ _

/-- Tables relate entry by entry if they do key by key. -/
theorem Ascending.forall₂ (h : t.Ascending) (h' : t'.Ascending)
    (hlookup : ∀ key, Option.Rel R (t.lookup key) (t'.lookup key)) :
    List.Forall₂ (fun a b => a.1 = b.1 ∧ R a.2 b.2) t t' := by
  refine forall₂_of_pairwise h h' (fun a b hab hba => ?_) ?_ ?_ ?_
  · rw [Std.OrientedCmp.gt_of_lt hab] at hba
    cases hba
  · rintro a₁ a₂ b₁ b₂ ⟨h₁, -⟩ ⟨h₂, -⟩
    rw [h₁, h₂]
  · intro a ha
    have hrel := hlookup a.1
    rw [h.lookup_of_mem ha] at hrel
    generalize hb : t'.lookup a.1 = b? at hrel
    cases hrel with
    | some hR => exact ⟨_, mem_of_lookup_eq_some hb, rfl, hR⟩
  · intro b hb
    have hrel := hlookup b.1
    rw [h'.lookup_of_mem hb] at hrel
    generalize ha : t.lookup b.1 = a? at hrel
    cases hrel with
    | some hR => exact ⟨_, mem_of_lookup_eq_some ha, rfl, hR⟩

end Table

namespace ModuleMap

variable {m m' : ModuleMap} {space name : String}

/-- No name is without a provider. -/
def Filled (m : ModuleMap) : Prop := ∀ space ∈ m.spaces, ∀ name ∈ space.2, name.2 ≠ []

theorem Filled.insert {c : Coordinate} {l : Location} (h : m.Filled)
    (hinsert : m.insert c l = .ok m') : m'.Filled := by
  unfold ModuleMap.insert at hinsert
  split at hinsert
  · cases hinsert
  · cases hinsert
    intro space hspace name hname
    rcases Table.mem_alter hspace with hspace | ⟨-, names?, hnames, hold⟩
    · exact h space hspace name hname
    · rw [hnames] at hname
      rcases Table.mem_alter hname with hname | ⟨-, providers?, hproviders, -⟩
      · cases names? with
        | none => cases hname
        | some names => exact h _ (hold names rfl) name hname
      · rw [hproviders]
        exact Table.alter_ne_nil

theorem Filled.exists_lookup {providers : Table String Location} (h : m.Filled)
    (hp : m.providers? space name = some providers) :
    ∃ provider location, m.lookup space name provider = some location := by
  obtain ⟨names, hspace, hname⟩ := Option.bind_eq_some_iff.mp hp
  have hne : providers ≠ [] :=
    h _ (Table.mem_of_lookup_eq_some hspace) _ (Table.mem_of_lookup_eq_some hname)
  obtain ⟨⟨provider, location⟩, rest, rfl⟩ := List.exists_cons_of_ne_nil hne
  exact ⟨provider, location, by rw [lookup_of_providers hp, List.lookup_cons_self]⟩

/-- Maps of merged configurations give related providers of every name, if they give related
locations of every coordinate. -/
theorem rel_providers {R : Location → Location → Prop} (h : m.WellFormed ∧ m.Filled)
    (h' : m'.WellFormed ∧ m'.Filled) (hlookup : ∀ provider,
      Option.Rel R (m.lookup space name provider) (m'.lookup space name provider)) :
    Option.Rel (List.Forall₂ fun a b => a.1 = b.1 ∧ R a.2 b.2)
      (m.providers? space name) (m'.providers? space name) := by
  cases hp : m.providers? space name with
  | none =>
    cases hp' : m'.providers? space name with
    | none => exact .none
    | some providers' =>
      obtain ⟨provider, location, hsome⟩ := h'.2.exists_lookup hp'
      have hrel := hlookup provider
      rw [hsome, lookup, hp] at hrel
      cases hrel
  | some providers =>
    cases hp' : m'.providers? space name with
    | none =>
      obtain ⟨provider, location, hsome⟩ := h.2.exists_lookup hp
      have hrel := hlookup provider
      rw [hsome, lookup, hp'] at hrel
      cases hrel
    | some providers' =>
      refine .some ((h.1.providers hp).1.forall₂ (h'.1.providers hp').1 fun provider => ?_)
      rw [← lookup_of_providers hp, ← lookup_of_providers hp']
      exact hlookup provider

end ModuleMap

/-- A merged map is sorted, and no name in it is without a provider. -/
theorem Config.wellFormed_filled_of_merge {files : List (Bytes × ConfigFile)} {c : Config}
    (h : merge files = .ok c) : c.modules.WellFormed ∧ c.modules.Filled :=
  ⟨wellFormed_of_merge h, keeps_of_merge (P := ModuleMap.Filled) nofun ModuleMap.Filled.insert h⟩

/-- Both locations open to stores with the same content, or neither opens. -/
def SameStoreAt (access access' : StoreAccess) (l l' : Location) : Prop :=
  Option.Rel SameContent (access l.gitDir).toOption (access' l'.gitDir).toOption

/-- Two configurations with the same hostname and the same coordinates answer every request with the
same status, headers and body, if the stores of each coordinate have the same content or do not open.
Where they are, where they were declared and what they fail with does not show. -/
theorem storage_details_hidden {files files' : List (Bytes × ConfigFile)} {c c' : Config}
    (hmerge : Config.merge files = .ok c) (hmerge' : Config.merge files' = .ok c')
    (hhostname : c.hostname = c'.hostname) (access access' : StoreAccess)
    (hstores : ∀ space name provider, Option.Rel (SameStoreAt access access')
      (c.modules.lookup space name provider) (c'.modules.lookup space name provider))
    (method : String) (target : Bytes) :
    ((Registry.ofConfig c).respond access method target).1 =
      ((Registry.ofConfig c').respond access' method target).1 := by
  have hsimilar (l l' : Location) (h : SameStoreAt access access' l l') :
      SimilarAt True access access' l l' := rel_imp h fun _ _ hs => hs.similar True
  have hregistries : SimilarRegistries True access access' (.ofConfig c) (.ofConfig c') :=
    { hostname := hhostname
      providers := fun space name =>
        ModuleMap.rel_providers (Config.wellFormed_filled_of_merge hmerge)
          (Config.wellFormed_filled_of_merge hmerge') fun provider =>
            rel_imp (hstores space name provider) hsimilar }
  exact Registry.respond_eq hregistries method target fun _ => trivial

/-- The modules of `twoProviders`, declared in two files and stored elsewhere. -/
def movedProviders : List (Bytes × ConfigFile) :=
  [(ascii "q.toml", ⟨some "tags.example", [], [⟨"a", "b", "c", "y.git"⟩]⟩),
    (ascii "s.toml", ⟨none, [], [⟨"a", "b", "d", "z.git"⟩]⟩)]

def mergedMoved : Config where
  hostname := mergedProviders.hostname
  listeners := []
  modules := ⟨[("a", [("b", [("c", ⟨ascii "y.git", "q.toml: module[0]"⟩),
    ("d", ⟨ascii "z.git", "s.toml: module[0]"⟩)])])]⟩
  files := [ascii "q.toml", ascii "s.toml"]

theorem merge_movedProviders : Config.merge movedProviders = .ok mergedMoved := rfl

/-- The store of the first provider, but every failure has another cause. -/
def movedStore : ObjectStore :=
  { (oneVersion (.ofNat 1)).view with
    readTree := fun _ => .error .damaged
    readBlob := fun _ => .error .damaged
    mem_treeIds := nofun }

def openMoved : StoreAccess := fun path =>
  if path = ascii "y.git" then .ok movedStore else .error (.notARepository path)

theorem sameContent_moved : SameContent (oneVersion (.ofNat 1)).view movedStore where
  commits _ := rfl
  absent _ := .rfl
  trees _ := rfl
  blobs _ := rfl
  circles := .inl rfl
  names := rfl

/-- The stores of `twoProviders` and of `movedProviders`, entry by entry. -/
theorem sameStores_moved (space name provider : String) :
    Option.Rel (SameStoreAt openFirst openMoved)
      (mergedProviders.modules.lookup space name provider)
      (mergedMoved.modules.lookup space name provider) := by
  have hc (origin origin' : String) :
      SameStoreAt openFirst openMoved ⟨ascii "w.git", origin⟩ ⟨ascii "y.git", origin'⟩ := by
    change Option.Rel SameContent (some _) (some _)
    exact .some sameContent_moved
  have hd (origin origin' : String) :
      SameStoreAt openFirst openMoved ⟨ascii "x.git", origin⟩ ⟨ascii "z.git", origin'⟩ := by
    change Option.Rel SameContent none none
    exact .none
  have hnames : Option.Rel (fun t t' => Option.Rel (SameStoreAt openFirst openMoved)
      (List.lookup provider t) (List.lookup provider t'))
      (mergedProviders.modules.providers? space name) (mergedMoved.modules.providers? space name) :=
    bind_rel (R := fun t t' => Option.Rel _ (List.lookup name t) (List.lookup name t'))
      (lookup_cons_rel (lookup_cons_rel
        (lookup_cons_rel (hc _ _) (lookup_cons_rel (hd _ _) .none)) .none) .none)
      fun _ _ h => h
  exact bind_rel hnames fun _ _ h => h

theorem storage_details_hidden_moved :
    Config.merge twoProviders = .ok mergedProviders ∧
    Config.merge movedProviders = .ok mergedMoved ∧
    ((Registry.ofConfig mergedProviders).respond openFirst "GET" (ascii "/a/b/d")).1 =
      ((Registry.ofConfig mergedMoved).respond openMoved "GET" (ascii "/a/b/d")).1 ∧
    ((Registry.ofConfig mergedProviders).respond openFirst "GET" (ascii "/a/b/d")).2 ≠
      ((Registry.ofConfig mergedMoved).respond openMoved "GET" (ascii "/a/b/d")).2 := by
  have hlogs : ((Registry.ofConfig mergedProviders).respond openFirst "GET" (ascii "/a/b/d")).2 ≠
      ((Registry.ofConfig mergedMoved).respond openMoved "GET" (ascii "/a/b/d")).2 := by
    decide
  exact ⟨merge_twoProviders, merge_movedProviders,
    storage_details_hidden merge_twoProviders merge_movedProviders rfl openFirst openMoved
      sameStores_moved "GET" _, hlogs⟩

end TagRegistry
