import TagRegistry.Proofs.BrokenReference
import TagRegistry.Proofs.NameOrder
import TagRegistry.Proofs.Representative
import TagRegistry.Proofs.ServerError
import TagRegistry.Proofs.StorageDetails

/-! References that are loose or packed.

A repository lists its loose references first and then those that are only packed, each part in name
order. So a loose tag stands for its class before every packed one. Where references are kept shows
in nothing else: the classes of a listing, and all requests that do not list versions, only depend
on which references there are and which commits they lead to. -/

namespace TagRegistry

open Bytes (ascii)

/-! ## Two parts of a listing -/

namespace Repository

variable {r r' : Repository}

/-- The names of the loose references, as they are listed. -/
def looseNames (r : Repository) : List String :=
  (Table.keys (r.looseFiles.filter isReference)).filterMap Utf8.decode?

/-- The names of the references that are only packed, as they are listed. -/
def packedNames (r : Repository) : List String :=
  let loose := Table.keys (r.looseFiles.filter isReference)
  ((r.packed.getD []).keys.filter fun name => !loose.contains name).filterMap Utf8.decode?

def names (r : Repository) : List String := r.looseNames ++ r.packedNames

/-- The packed references can be read, and both kinds of references are sorted by name. -/
structure Enumerated (r : Repository) : Prop where
  readable : r.packed.isSome = true
  loose : NameSorted r.looseFiles
  packed : NameSorted (r.packed.getD [])

/-- Every repository on a disk is sorted. -/
theorem enumerated_of_open {d : Disk} {path : Bytes} (h : d.openRepository path = .ok r)
    (hreadable : r.packed.isSome = true) : r.Enumerated := by
  obtain ⟨p, rfl⟩ : ∃ p, r = d.repositoryAt p := by
    unfold Disk.openRepository at h
    split at h
    · next p _ =>
      split at h
      · cases h
        exact ⟨p, rfl⟩
      · cases h
    · cases h
  obtain ⟨packed, hpacked⟩ := Option.isSome_iff_exists.mp hreadable
  refine ⟨hreadable, d.nameSorted_looseFiles p, ?_⟩
  rw [hpacked]
  exact Disk.nameSorted_packedRefs hpacked

theorem Enumerated.sorted_looseNames (h : r.Enumerated) : r.looseNames.Pairwise (· ≤ ·) :=
  h.loose.texts (List.filter_sublist.map Prod.fst)

theorem Enumerated.sorted_packedNames (h : r.Enumerated) : r.packedNames.Pairwise (· ≤ ·) :=
  h.packed.texts List.filter_sublist

theorem Enumerated.referenceNames (h : r.Enumerated) : r.view.referenceNames = .ok r.names := by
  obtain ⟨packed, hpacked⟩ := Option.isSome_iff_exists.mp h.readable
  change r.referenceNames = _
  rw [Repository.referenceNames, names, looseNames, packedNames, hpacked, ← List.filterMap_append]
  rfl

/-! ## The tag that stands for a class -/

/-- No loose tag is of the class of `v`. -/
def NoneLoose (r : Repository) (v : Version) : Prop :=
  ∀ name ∈ r.looseNames, ∀ u, NamesVersion name u → u.equivalent v = false

/-- `tag` stands for the class of `v`, and it names `w`: the smallest loose tag of the class, or the
smallest packed one if none is loose. -/
inductive Speaks (r : Repository) (v : Version) (tag : String) (w : Version) : Prop where
  | loose (smallest : SmallestTag r.looseNames v tag w)
  | packed (none : r.NoneLoose v) (smallest : SmallestTag r.packedNames v tag w)

section Speaks

variable {v w w' : Version} {tag tag' : String}

theorem NoneLoose.not_smallest (h : r.NoneLoose v) : ¬SmallestTag r.looseNames v tag w := by
  intro hsmallest
  have hother := h tag hsmallest.mem w hsmallest.spells
  rw [hsmallest.equivalent] at hother
  cases hother

theorem Speaks.unique (h : r.Speaks v tag w) (h' : r.Speaks v tag' w') : tag = tag' ∧ w = w' := by
  cases h with
  | loose smallest =>
    cases h' with
    | loose smallest' => exact smallest.unique smallest'
    | packed none' => exact absurd smallest none'.not_smallest
  | packed none smallest =>
    cases h' with
    | loose smallest' => exact absurd smallest' none.not_smallest
    | packed _ smallest' => exact smallest.unique smallest'

theorem Speaks.mem (h : r.Speaks v tag w) : tag ∈ r.names := by
  cases h with
  | loose smallest => exact List.mem_append_left _ smallest.mem
  | packed _ smallest => exact List.mem_append_right _ smallest.mem

theorem Speaks.spells (h : r.Speaks v tag w) : NamesVersion tag w := by
  cases h with
  | loose smallest => exact smallest.spells
  | packed _ smallest => exact smallest.spells

theorem Speaks.equivalent (h : r.Speaks v tag w) : w.equivalent v = true := by
  cases h with
  | loose smallest => exact smallest.equivalent
  | packed _ smallest => exact smallest.equivalent

theorem exists_smallestTag_of_find? {names : List String} (hsorted : names.Pairwise (· ≤ ·))
    (h : (names.filterMap versionOfRef?).find? (·.equivalent w) = some w)
    (hwv : w.equivalent v = true) : ∃ tag, SmallestTag names v tag w := by
  obtain ⟨before, tag, after, rfl, hspells, hfirst⟩ := Catalog.exists_first_name h
  exact ⟨tag, smallestTag_of_first hsorted hspells hwv hfirst⟩

/-- Every class has a smallest tag, in whatever order the names are. -/
theorem exists_smallestTag_of_mem {names : List String} {name : String} (hname : name ∈ names)
    (hv : NamesVersion name v) : ∃ tag w, SmallestTag names v tag w := by
  let sorted := names.mergeSort fun a b => decide (a ≤ b)
  have htrans (a b c : String) : decide (a ≤ b) → decide (b ≤ c) → decide (a ≤ c) := by
    simpa using String.le_trans
  have htotal (a b : String) : decide (a ≤ b) || decide (b ≤ a) := by
    simpa using String.le_total a b
  have hsorted : sorted.Pairwise (· ≤ ·) :=
    (List.pairwise_mergeSort htrans htotal names).imp of_decide_eq_true
  have hmem (other : String) : other ∈ sorted ↔ other ∈ names := List.mem_mergeSort
  obtain ⟨w, hw, hwv⟩ := Catalog.exists_mem_ofNames
    (List.mem_filterMap.mpr ⟨name, (hmem name).mpr hname, versionOfRef?_eq_some_iff.mpr hv⟩)
  obtain ⟨tag, htag⟩ := exists_smallestTag hsorted (Catalog.exactListing_ofNames sorted) hw hwv
  exact ⟨tag, w, (hmem tag).mp htag.mem, htag.spells, htag.equivalent, fun other hother =>
    htag.smallest other ((hmem other).mpr hother)⟩

/-- A class is listed as the version that the tag which stands for it names. -/
theorem mem_ofNames_iff (h : r.Enumerated) :
    w ∈ Catalog.ofNames r.names ∧ w.equivalent v = true ↔ ∃ tag, r.Speaks v tag w := by
  have hspeaks {x : Version} (hx : x ∈ Catalog.ofNames r.names) (hxv : x.equivalent v = true) :
      ∃ tag, r.Speaks v tag x := by
    have hfind := Catalog.find?_of_mem_ofNames hx
    rw [names, List.filterMap_append, List.find?_append] at hfind
    cases hloose : (r.looseNames.filterMap versionOfRef?).find? (·.equivalent x) with
    | some y =>
      rw [hloose, Option.some_or] at hfind
      cases hfind
      obtain ⟨tag, hsmallest⟩ := exists_smallestTag_of_find? h.sorted_looseNames hloose hxv
      exact ⟨tag, .loose hsmallest⟩
    | none =>
      rw [hloose, Option.none_or] at hfind
      obtain ⟨tag, hsmallest⟩ := exists_smallestTag_of_find? h.sorted_packedNames hfind hxv
      refine ⟨tag, .packed (fun name hname u hu => ?_) hsmallest⟩
      have hnot := List.find?_eq_none.mp hloose u
        (List.mem_filterMap.mpr ⟨name, hname, versionOfRef?_eq_some_iff.mpr hu⟩)
      exact Bool.eq_false_iff.mpr fun huv => hnot (equivalent_of_class huv hxv)
  refine ⟨fun ⟨hw, hwv⟩ => hspeaks hw hwv, fun ⟨tag, htag⟩ => ⟨?_, htag.equivalent⟩⟩
  obtain ⟨x, hx, hxw⟩ := Catalog.exists_mem_ofNames
    (List.mem_filterMap.mpr ⟨tag, htag.mem, versionOfRef?_eq_some_iff.mpr htag.spells⟩)
  have hxv : x.equivalent v = true := (Version.equivalent_congr hxw v).trans htag.equivalent
  obtain ⟨tag', htag'⟩ := hspeaks hx hxv
  rw [(htag.unique htag').2]
  exact hx

/-- The tag that stands for a class is its smallest one if that is loose, or if none is. -/
theorem Speaks.eq_smallest_iff (h : r.Speaks v tag w) (hsmallest : SmallestTag r.names v tag' w') :
    tag = tag' ↔ tag' ∈ r.looseNames ∨ r.NoneLoose v := by
  constructor
  · rintro rfl
    cases h with
    | loose smallest => exact .inl smallest.mem
    | packed none smallest => exact .inr none
  · intro hplace
    have hle : tag' ≤ tag := hsmallest.smallest tag h.mem w h.spells h.equivalent
    refine String.le_antisymm ?_ hle
    cases h with
    | loose smallest =>
      rcases hplace with hloose | hnone
      · exact smallest.smallest tag' hloose w' hsmallest.spells hsmallest.equivalent
      · exact absurd smallest hnone.not_smallest
    | packed none smallest =>
      rcases List.mem_append.mp hsmallest.mem with hloose | hpacked
      · have hother := none tag' hloose w' hsmallest.spells
        rw [hsmallest.equivalent] at hother
        cases hother
      · exact smallest.smallest tag' hpacked w' hsmallest.spells hsmallest.equivalent

end Speaks

/-! ## Repositories with the same references -/

/-- The same references, which lead to the same commits, and the same objects. Which references are
loose and which are packed may differ. -/
structure Repacked (r r' : Repository) : Prop where
  enumerated : r.Enumerated
  enumerated' : r'.Enumerated
  names (name : String) : name ∈ r.names ↔ name ∈ r'.names
  commits (name : String) : r.peel name = r'.peel name
  objects : r.objects = r'.objects

/-- In each class, the tags that stand for it in either repository name the same version. -/
def SameSpeakers (r r' : Repository) : Prop :=
  ∀ ⦃v tag w tag' w'⦄, r.Speaks v tag w → r'.Speaks v tag' w' → w = w'

theorem exists_listed {names names' : List String} (hnames : ∀ name ∈ names, name ∈ names')
    {w : Version} (hw : w ∈ Catalog.ofNames names) :
    ∃ w' ∈ Catalog.ofNames names', w.equivalent w' = true := by
  have hnamed := List.mem_of_find?_eq_some (Catalog.find?_of_mem_ofNames hw)
  obtain ⟨name, hname, hv⟩ := List.mem_filterMap.mp hnamed
  obtain ⟨w', hw', hclass⟩ :=
    Catalog.exists_mem_ofNames (List.mem_filterMap.mpr ⟨name, hnames name hname, hv⟩)
  exact ⟨w', hw', Version.equivalent_comm w' w ▸ hclass⟩

namespace Repacked

theorem descending_asymm (a b : Version) (h : Version.compare a b = .gt) :
    ¬Version.compare b a = .gt := by
  rw [Std.OrientedCmp.lt_of_gt h]
  exact nofun

/-- Both repositories list the same classes. -/
theorem classes (h : Repacked r r') :
    List.Forall₂ (fun w w' => w.equivalent w' = true) (Catalog.ofNames r.names)
      (Catalog.ofNames r'.names) := by
  refine forall₂_of_pairwise (Catalog.pairwise_ofNames _) (Catalog.pairwise_ofNames _)
    descending_asymm ?_ ?_ ?_
  · intro a₁ a₂ b₁ b₂ h₁ h₂
    rw [Version.equivalent_iff] at h₁ h₂
    rw [Std.TransCmp.congr_left h₁, Std.TransCmp.congr_right h₂]
  · exact fun a ha => exists_listed (fun name => (h.names name).mp) ha
  · intro b hb
    obtain ⟨a, ha, hba⟩ := exists_listed (fun name => (h.names name).mpr) hb
    exact ⟨a, ha, Version.equivalent_comm b a ▸ hba⟩

/-- The listings are the same exactly if the same versions stand for all classes. -/
theorem versions_eq_iff (h : Repacked r r') :
    Catalog.ofNames r.names = Catalog.ofNames r'.names ↔ SameSpeakers r r' := by
  constructor
  · intro heq v tag w tag' w' hspeaks hspeaks'
    obtain ⟨hw, hwv⟩ := (mem_ofNames_iff h.enumerated).mpr ⟨tag, hspeaks⟩
    obtain ⟨hw', hwv'⟩ := (mem_ofNames_iff h.enumerated').mpr ⟨tag', hspeaks'⟩
    have hdescending := Catalog.pairwise_ofNames r.names
    have hclass := Catalog.filter_eq_singleton hdescending hw hwv
    rw [Catalog.filter_eq_singleton hdescending (heq ▸ hw') hwv'] at hclass
    exact (List.singleton_inj.mp hclass).symm
  · intro hsame
    have hequal {a b : Version} (ha : a ∈ Catalog.ofNames r.names)
        (hb : b ∈ Catalog.ofNames r'.names) (hab : a.equivalent b = true) : a = b := by
      obtain ⟨tag, hspeaks⟩ := (mem_ofNames_iff h.enumerated).mp ⟨ha, hab⟩
      obtain ⟨tag', hspeaks'⟩ := (mem_ofNames_iff h.enumerated').mp ⟨hb, Version.equivalent_refl b⟩
      exact hsame hspeaks hspeaks'
    have hall : List.Forall₂ Eq (Catalog.ofNames r.names) (Catalog.ofNames r'.names) := by
      refine forall₂_of_pairwise (Catalog.pairwise_ofNames _) (Catalog.pairwise_ofNames _)
        descending_asymm ?_ ?_ ?_
      · rintro a₁ a₂ b₁ b₂ rfl rfl
        rfl
      · intro a ha
        obtain ⟨b, hb, hab⟩ := exists_listed (fun name => (h.names name).mp) ha
        exact ⟨b, hb, hequal ha hb hab⟩
      · intro b hb
        obtain ⟨a, ha, hba⟩ := exists_listed (fun name => (h.names name).mpr) hb
        exact ⟨a, ha, hequal ha hb (Version.equivalent_comm b a ▸ hba)⟩
    exact List.forall₂_eq_eq_eq ▸ hall

theorem sameSnapshots (h : Repacked r r') : SameSnapshots r.view r'.view := by
  have hpeel : r.view.peel = r'.view.peel := funext h.commits
  have htrees : r.view.readTree = r'.view.readTree := by
    funext id
    change r.readTree id = r'.readTree id
    simp only [readTree, Repository.find, object?, h.objects]
  have hblobs : r.view.readBlob = r'.view.readBlob := by
    funext id
    change r.readBlob id = r'.readBlob id
    simp only [readBlob, Repository.find, object?, h.objects]
  refine ⟨fun name => by rw [hpeel], fun name => by rw [Absent, Absent, hpeel],
    fun id => by rw [htrees], fun id => by rw [hblobs], .inl ?_⟩
  change (r.objects.map Prod.fst).length = (r'.objects.map Prod.fst).length
  rw [h.objects]

theorem listed_iff (h : Repacked r r') (v : Version) : Listed r.names v ↔ Listed r'.names v := by
  simp only [Listed, h.names]

theorem similar (h : Repacked r r') {lists : Prop} (hlists : lists → SameSpeakers r r') :
    SimilarStores lists r.view r'.view where
  toSameSnapshots := h.sameSnapshots
  listed v := by
    rw [hasVersion_eq h.enumerated.referenceNames, hasVersion_eq h.enumerated'.referenceNames,
      Bool.eq_iff_iff.mpr (any_equivalent_iff.trans ((h.listed_iff v).trans any_equivalent_iff.symm))]
  versions hl := by
    rw [Catalog.listVersions_eq h.enumerated.referenceNames,
      Catalog.listVersions_eq h.enumerated'.referenceNames, h.versions_eq_iff.mpr (hlists hl)]

end Repacked

/-- Where all versions are in normal form, it does not matter which references are packed. -/
theorem sameSpeakers_of_normal (h : Repacked r r')
    (hnormal : ∀ name ∈ r.names, ∀ v, NamesVersion name v → v.Normal) : SameSpeakers r r' := by
  intro v tag w tag' w' hspeaks hspeaks'
  have hw : w.Normal := hnormal tag hspeaks.mem w hspeaks.spells
  have hw' : w'.Normal := hnormal tag' ((h.names tag').mpr hspeaks'.mem) w' hspeaks'.spells
  exact hw.eq_of_equivalent hw' (equivalent_of_class hspeaks.equivalent hspeaks'.equivalent)

end Repository

/-! ## Answers -/

/-- The stores that a registry reads, with this one at a path. -/
def StoreAccess.replace (access : StoreAccess) (path : Bytes) (s : ObjectStore) : StoreAccess :=
  fun other => if other = path then .ok s else access other

theorem SimilarStores.refl (lists : Prop) (s : ObjectStore) : SimilarStores lists s s where
  commits _ := rfl
  absent _ := .rfl
  trees _ := rfl
  blobs _ := rfl
  circles := .inl rfl
  listed _ := rfl
  versions _ := rfl

/-- A store may be replaced by one that serves alike. -/
theorem SimilarStores.registries {lists : Prop} {s s' : ObjectStore} (h : SimilarStores lists s s')
    (access : StoreAccess) (path : Bytes) (registry : Registry) :
    SimilarRegistries lists (access.replace path s) (access.replace path s') registry registry where
  hostname := rfl
  providers space name := by
    have hlocation (l : Location) :
        SimilarAt lists (access.replace path s) (access.replace path s') l l := by
      rw [SimilarAt, StoreAccess.replace, StoreAccess.replace]
      split
      · exact .some h
      · cases (access l.gitDir).toOption with
        | none => exact .none
        | some other => exact .some (.refl lists other)
    cases registry.modules.providers? space name with
    | none => exact .none
    | some providers => exact .some (List.forall₂_same.mpr fun item _ => ⟨rfl, hlocation item.2⟩)

namespace Repository

/-- Two repositories that only differ in which references are packed list the same classes in the
same order, each as the version of the tag that stands for it there. This is the smallest tag of the
class exactly if that is loose or no tag of the class is. Which repository a registry reads shows at
most in requests that list versions, and only if other versions stand for a class. -/
theorem packed_references {r r' : Repository} (h : Repacked r r') :
    (∃ versions versions', Catalog.listVersions r.view = .ok versions ∧
      Catalog.listVersions r'.view = .ok versions' ∧
      List.Forall₂ (fun w w' => w.equivalent w' = true) versions versions' ∧
      (versions = versions' ↔ SameSpeakers r r') ∧
      ∀ name ∈ r.names, ∀ v, NamesVersion name v → ∃ tag w smallest u, r.Speaks v tag w ∧
        versions.filter (·.equivalent v) = [w] ∧ SmallestTag r.names v smallest u ∧
        (tag = smallest ↔ smallest ∈ r.looseNames ∨ r.NoneLoose v)) ∧
    ((∀ name ∈ r.names, ∀ v, NamesVersion name v → v.Normal) → SameSpeakers r r') ∧
    ∀ (registry : Registry) (access : StoreAccess) (path : Bytes) (method : String)
      (target : Bytes), (Operation.listsVersionsAt target = true → SameSpeakers r r') →
      (registry.respond (access.replace path r.view) method target).1 =
        (registry.respond (access.replace path r'.view) method target).1 := by
  refine ⟨⟨_, _, Catalog.listVersions_eq h.enumerated.referenceNames,
    Catalog.listVersions_eq h.enumerated'.referenceNames, h.classes, h.versions_eq_iff, ?_⟩,
    sameSpeakers_of_normal h, ?_⟩
  · intro name hname v hv
    obtain ⟨w, hw, hwv⟩ := Catalog.exists_mem_ofNames
      (List.mem_filterMap.mpr ⟨name, hname, versionOfRef?_eq_some_iff.mpr hv⟩)
    obtain ⟨tag, hspeaks⟩ := (mem_ofNames_iff h.enumerated).mp ⟨hw, hwv⟩
    obtain ⟨smallest, u, hsmallest⟩ := exists_smallestTag_of_mem hname hv
    exact ⟨tag, w, smallest, u, hspeaks,
      Catalog.filter_eq_singleton (Catalog.pairwise_ofNames _) hw hwv, hsmallest,
      hspeaks.eq_smallest_iff hsmallest⟩
  · intro registry access path method target hlists
    exact Registry.respond_eq ((h.similar id).registries access path registry) method target hlists

/-! ## Tags of one commit -/

/-- The same references lead to the same commits. -/
theorem peel_congr {r r' : Repository} (hobjects : r.objects = r'.objects)
    (hlookup : ∀ name, r.lookupRef name = r'.lookupRef name) (name : String) :
    r.peel name = r'.peel name := by
  have hresolve (hops : Nat) (target : RefTarget) :
      r.resolve hops target = r'.resolve hops target := by
    induction hops generalizing target with
    | zero => cases target <;> rfl
    | succ hops ih =>
      cases target with
      | object id => rfl
      | reference other =>
        rw [resolve, resolve, hlookup]
        simp only [ih]
  have hpeel (depth : Nat) (id : ObjectId) (expected : Option ObjectKind) :
      r.peelObject depth id expected = r'.peelObject depth id expected := by
    induction depth generalizing id expected with
    | zero => rfl
    | succ depth ih =>
      rw [peelObject, peelObject, object?, object?, hobjects]
      simp only [ih]
  have htarget (target : RefTarget) : r.resolveTarget target = r'.resolveTarget target := by
    cases target with
    | object id => rfl
    | reference other =>
      rw [resolveTarget, resolveTarget]
      simp only [hresolve]
  rw [peel, peel]
  simp only [hlookup, htarget, hpeel, hobjects]

/-- A repository with one commit, and tags for it; some are loose, the others packed. -/
def tagged (loose packed : List String) : Repository :=
  .ofTables firstCommit (loose.map fun name => (ascii name, List.replicate 40 48))
    (packed.map fun name => (ascii name, .ofNat 0))

theorem lookup_map_const {α : Type} (a : α) (names : List String) (name : Bytes) :
    (names.map fun n => (ascii n, a)).lookup name =
      if name ∈ names.map ascii then some a else none := by
  induction names with
  | nil => rfl
  | cons first rest ih =>
    rw [List.map_cons, List.map_cons, List.lookup_cons, ih]
    by_cases heq : name = ascii first
    · simp [heq]
    · have hne : (name == ascii first) = false := beq_false_of_ne heq
      simp only [hne, List.mem_cons, heq, false_or]

/-- What a tag leads to does not depend on where it is kept. -/
theorem lookupRef_tagged (loose packed : List String) (name : Bytes) :
    (tagged loose packed).lookupRef name =
      .ok (if name ∈ (loose ++ packed).map ascii then some (.object (.ofNat 0)) else none) := by
  have htarget : RefTarget.ofFile? (List.replicate 40 48) = some (.object (.ofNat 0)) := rfl
  simp only [lookupRef, tagged, ofTables, lookup_map_const, List.map_append, List.mem_append]
  by_cases hloose : name ∈ loose.map ascii
  · simp only [hloose, if_true, htarget, true_or]
  · simp only [hloose, if_false, false_or]
    split <;> rfl

theorem lookupRef_tagged_perm {loose packed loose' packed' : List String}
    (h : (loose ++ packed).Perm (loose' ++ packed')) (name : Bytes) :
    (tagged loose packed).lookupRef name = (tagged loose' packed').lookupRef name := by
  rw [lookupRef_tagged, lookupRef_tagged]
  simp only [(h.map ascii).mem_iff]

theorem repacked_tagged {loose packed loose' packed' : List String}
    (henumerated : (tagged loose packed).Enumerated)
    (henumerated' : (tagged loose' packed').Enumerated)
    (hnames : (tagged loose packed).names.Perm (tagged loose' packed').names)
    (hsame : (loose ++ packed).Perm (loose' ++ packed')) :
    Repacked (tagged loose packed) (tagged loose' packed') where
  enumerated := henumerated
  enumerated' := henumerated'
  names _ := hnames.mem_iff
  commits := peel_congr rfl (lookupRef_tagged_perm hsame)
  objects := rfl

/-- Two releases, all loose or the first one packed. -/
def looseReleases : Repository := tagged ["refs/tags/v1.0.0", "refs/tags/v1.1.0"] []

def packedRelease : Repository := tagged ["refs/tags/v1.1.0"] ["refs/tags/v1.0.0"]

/-- A registry that reads the repository for its first provider, and none for the second. -/
def answer (r : Repository) (target : String) : Response :=
  ((Registry.ofConfig mergedProviders).respond
    (StoreAccess.replace openFirst (ascii "w.git") r.view) "GET" (ascii target)).1

theorem packed_references_twoReleases :
    Repacked looseReleases packedRelease ∧ looseReleases.names ≠ packedRelease.names ∧
    (∃ versions, Catalog.listVersions looseReleases.view = .ok versions ∧
      Catalog.listVersions packedRelease.view = .ok versions) ∧
    looseReleases.answer "/a/b/c/versions" = packedRelease.answer "/a/b/c/versions" := by
  have hrepacked : Repacked looseReleases packedRelease :=
    repacked_tagged ⟨rfl, by decide, by decide⟩ ⟨rfl, by decide, by decide⟩ (by decide) (by decide)
  have hnormal : ∀ name ∈ looseReleases.names, ∀ v, NamesVersion name v → v.Normal := by
    have hnames : looseReleases.names = ["refs/tags/v1.0.0", "refs/tags/v1.1.0"] := rfl
    have hparse : NamesVersion "refs/tags/v1.0.0" (.release 1 0 0) := ⟨"1.0.0", rfl, rfl⟩
    have hparse' : NamesVersion "refs/tags/v1.1.0" (.release 1 1 0) := ⟨"1.1.0", rfl, rfl⟩
    rw [hnames, List.forall_mem_cons, List.forall_mem_singleton]
    refine ⟨fun v hv => ?_, fun v hv => ?_⟩
    · rw [hv.unique hparse]
      exact ⟨.inl rfl, rfl, nofun⟩
    · rw [hv.unique hparse']
      exact ⟨.inl rfl, rfl, nofun⟩
  obtain ⟨⟨versions, versions', hlist, hlist', -, hiff, -⟩, hsame, hrespond⟩ :=
    packed_references hrepacked
  have hspeakers := hsame hnormal
  refine ⟨hrepacked, by decide, ⟨versions, hlist, ?_⟩, hrespond _ _ _ _ _ fun _ => hspeakers⟩
  rw [hiff.mpr hspeakers]
  exact hlist'

/-- Two builds of a version, all loose or the first one packed. -/
def looseBuilds : Repository := tagged ["refs/tags/v1.0.0+a", "refs/tags/v1.0.0+b"] []

def packedBuild : Repository := tagged ["refs/tags/v1.0.0+b"] ["refs/tags/v1.0.0+a"]

/-- What is answered from a repository that lists one version. -/
theorem answers_of_single {r : Repository} {v : Version}
    (h : Catalog.listVersions r.view = .ok [v]) :
    r.answer "/a/b/c/versions" =
        .json (VersionList.of "tags.example" firstProvider.coordinate [v]).toJson ∧
      r.answer "/a/b/c" = .json (ModuleSummary.of firstProvider.coordinate v).toJson ∧
      r.answer "/a/b" =
        .json (ModuleList.toJson ⟨[ModuleSummary.of firstProvider.coordinate v], none⟩) := by
  let access := StoreAccess.replace openFirst (ascii "w.git") r.view
  have hversions : firstProvider.versions? access = some [v] := by
    change (Catalog.listVersions r.view).toOption = _
    rw [h]
    rfl
  have hsummary : (Registry.ofConfig mergedProviders).latestSummary? access "a" "b" "c" =
      some (ModuleSummary.of firstProvider.coordinate v) :=
    (latestSummary?_eq_some_iff located_firstProvider).mpr ⟨v, [], hversions, rfl⟩
  have hlist : (Registry.ofConfig mergedProviders).versionList? access "a" "b" "c" =
      some (VersionList.of "tags.example" firstProvider.coordinate [v]) := by
    rw [Registry.versionList?_of_located located_firstProvider, hversions]
    rfl
  have hunopened : (Registry.ofConfig mergedProviders).latestSummary? access "a" "b" "d" = none :=
    rfl
  have hproviders := reply_providers access none merge_twoProviders
    (rfl : mergedProviders.modules.providers? "a" "b" = some _)
  simp only [Table.keys, List.map_cons, List.map_nil, List.filterMap_cons, hsummary, hunopened,
    List.filterMap_nil] at hproviders
  exact ⟨(Registry.reply_everyVersion none).1 _ hlist, (Registry.reply_latest none).1 _ hsummary,
    hproviders⟩

theorem json_ne {v w : Json.Value}
    (h : Utf8.encodeChars (Json.pretty 0 v) ≠ Utf8.encodeChars (Json.pretty 0 w)) :
    Response.json v ≠ Response.json w := by
  intro heq
  have hbody := congrArg Response.body heq
  simp only [Response.json, Response.sized, Json.Value.render, Utf8.encode, String.toList_ofList,
    ResponseBody.whole.injEq] at hbody
  exact h hbody

/-- The answers change if the first build is packed, and then the smallest tag stands for nothing. -/
theorem packing_moves_representative :
    Repacked looseBuilds packedBuild ∧
    (∀ name, looseBuilds.lookupRef name = packedBuild.lookupRef name) ∧
    SmallestTag packedBuild.names (.release 1 0 0) "refs/tags/v1.0.0+a" (buildOf ['a'] rfl) ∧
    Catalog.listVersions looseBuilds.view = .ok [buildOf ['a'] rfl] ∧
    Catalog.listVersions packedBuild.view = .ok [buildOf ['b'] rfl] ∧
    looseBuilds.answer "/a/b/c/versions" ≠ packedBuild.answer "/a/b/c/versions" ∧
    looseBuilds.answer "/a/b/c" ≠ packedBuild.answer "/a/b/c" ∧
    looseBuilds.answer "/a/b" ≠ packedBuild.answer "/a/b" := by
  have hloose : Catalog.listVersions looseBuilds.view = .ok [buildOf ['a'] rfl] := by
    have hclass : Catalog.ofNames ["refs/tags/v1.0.0+a", "refs/tags/v1.0.0+b"] =
        [buildOf ['a'] rfl] := by
      rw [Catalog.ofNames_of_descending (by decide)]
      rfl
    exact hclass ▸ Catalog.listVersions_eq rfl
  have hpacked : Catalog.listVersions packedBuild.view = .ok [buildOf ['b'] rfl] := by
    have hclass : Catalog.ofNames ["refs/tags/v1.0.0+b", "refs/tags/v1.0.0+a"] =
        [buildOf ['b'] rfl] := by
      rw [Catalog.ofNames_of_descending (by decide)]
      rfl
    exact hclass ▸ Catalog.listVersions_eq rfl
  obtain ⟨hversions, hlatest, hproviders⟩ := answers_of_single hloose
  obtain ⟨hversions', hlatest', hproviders'⟩ := answers_of_single hpacked
  have hsame : (["refs/tags/v1.0.0+a", "refs/tags/v1.0.0+b"] ++ []).Perm
      (["refs/tags/v1.0.0+b"] ++ ["refs/tags/v1.0.0+a"]) := by decide
  refine ⟨repacked_tagged ⟨rfl, by decide, by decide⟩ ⟨rfl, by decide, by decide⟩ (by decide) hsame,
    lookupRef_tagged_perm hsame, ⟨by decide, ⟨"1.0.0+a", rfl, rfl⟩, rfl, ?_⟩, hloose, hpacked, ?_⟩
  · have hfirst : ∀ other ∈ packedBuild.names, "refs/tags/v1.0.0+a" ≤ other := by decide
    exact fun other hother _ _ _ => hfirst other hother
  · rw [hversions, hversions', hlatest, hlatest', hproviders, hproviders']
    exact ⟨json_ne (by decide +kernel), json_ne (by decide +kernel), json_ne (by decide +kernel)⟩

end Repository

end TagRegistry
