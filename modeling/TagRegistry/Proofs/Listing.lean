import TagRegistry.Catalog
import TagRegistry.Proofs.Precedence
import TagRegistry.Store.Memory

/-! What a listing of versions holds. Sorting brings the members of each class of equal
precedence together without changing their order, so that keeping the first of each run keeps the
first enumerated member of each class. -/

namespace TagRegistry

/-! ## Names of versions -/

/-- A reference name is the mark of version tags followed by the text of a version. -/
def NamesVersion (name : String) (v : Version) : Prop :=
  ∃ text, name = "refs/tags/v" ++ text ∧ Version.parse text = .ok v

theorem versionOfRef?_eq_some_iff {name : String} {v : Version} :
    versionOfRef? name = some v ↔ NamesVersion name v := by
  simp only [versionOfRef?, Option.bind_eq_some_iff, Text.dropFront?_eq_some_iff]
  constructor
  · rintro ⟨rest, hname, hparse⟩
    refine ⟨String.ofList rest, ?_, ?_⟩
    · rw [← String.toList_inj, hname, String.toList_append]
      simp only [String.toList_ofList]
      rfl
    · cases hp : Version.parse (String.ofList rest) with
      | error e => rw [hp] at hparse; cases hparse
      | ok w => rw [hp] at hparse; exact congrArg _ (Option.some.inj hparse)
  · rintro ⟨text, rfl, hparse⟩
    refine ⟨text.toList, String.toList_append, ?_⟩
    rw [String.ofList_toList, hparse]
    rfl

/-- `versions` is what a store with these reference names lists. -/
structure ExactListing (names : List String) (versions : List Version) : Prop where
  /-- Each version ranks strictly higher than all that follow. -/
  descending : versions.Pairwise fun a b => Version.compare a b = .gt
  /-- Every version that is named has one equivalent in the list, and only one. -/
  complete : ∀ name ∈ names, ∀ v, NamesVersion name v →
    ∃ w, versions.filter (·.equivalent v) = [w]
  /-- Every version of the list is named, and by the first name of its class. -/
  first : ∀ w ∈ versions, ∃ before name after, names = before ++ name :: after ∧
    NamesVersion name w ∧ ∀ n ∈ before, ∀ u, NamesVersion n u → u.equivalent w = false

namespace Catalog

/-! ## Keeping the first of each run -/

theorem pairwise_distinctAfter {last : Version} {versions : List Version}
    (h : (last :: versions).Pairwise (Version.atLeast · ·)) :
    (last :: distinctAfter last versions).Pairwise fun a b => Version.compare a b = .gt := by
  induction versions generalizing last with
  | nil => simp [distinctAfter]
  | cons v rest ih =>
    obtain ⟨hlast, htail⟩ := List.pairwise_cons.mp h
    unfold distinctAfter
    split
    · exact ih (h.sublist ((List.sublist_cons_self v rest).cons_cons last))
    · next hne =>
      have hgt := Version.compare_gt_of_atLeast (hlast v (by simp)) (by simpa using hne)
      refine List.pairwise_cons.mpr ⟨?_, ih htail⟩
      intro w hw
      rcases List.mem_cons.mp hw with rfl | hw
      · exact hgt
      · exact Std.TransCmp.gt_trans hgt ((List.pairwise_cons.mp (ih htail)).1 w hw)

/-- Each version that is kept is the first of its class. -/
theorem find?_of_mem_distinctAfter {last w : Version} {versions : List Version}
    (h : (last :: versions).Pairwise (Version.atLeast · ·))
    (hw : w ∈ last :: distinctAfter last versions) :
    (last :: versions).find? (·.equivalent w) = some w := by
  induction versions generalizing last with
  | nil =>
    rw [List.mem_singleton.mp hw]
    simp [Version.equivalent_refl]
  | cons v rest ih =>
    rcases List.mem_cons.mp hw with rfl | hmem
    · simp [Version.equivalent_refl]
    · have hgt := (List.pairwise_cons.mp (pairwise_distinctAfter h)).1 w hmem
      have hne : last.equivalent w = false := by simp [Version.equivalent, hgt]
      rw [List.find?_cons_of_neg (by simp [hne])]
      unfold distinctAfter at hmem
      split at hmem
      · next heq =>
        -- Here `v` is left out, and whatever is not equivalent to `last` is not to `v` either.
        have hsub := h.sublist ((List.sublist_cons_self v rest).cons_cons last)
        have hfound := ih hsub (List.mem_cons_of_mem _ hmem)
        rw [List.find?_cons_of_neg (by simp [hne])] at hfound
        rwa [List.find?_cons_of_neg (by simp [← Version.equivalent_congr heq, hne])]
      · exact ih (List.pairwise_cons.mp h).2 hmem

/-- No class is lost. -/
theorem exists_mem_distinctAfter {last x : Version} {versions : List Version}
    (hx : x ∈ last :: versions) :
    ∃ w ∈ last :: distinctAfter last versions, w.equivalent x = true := by
  induction versions generalizing last with
  | nil =>
    rw [List.mem_singleton.mp hx]
    exact ⟨last, by simp, Version.equivalent_refl last⟩
  | cons v rest ih =>
    rcases List.mem_cons.mp hx with rfl | hx
    · exact ⟨x, by simp, Version.equivalent_refl x⟩
    · unfold distinctAfter
      split
      · next heq =>
        rcases List.mem_cons.mp hx with rfl | hx
        · exact ⟨last, by simp, heq⟩
        · exact ih (List.mem_cons_of_mem _ hx)
      · obtain ⟨w, hw, hwx⟩ := ih hx
        exact ⟨w, List.mem_cons_of_mem _ hw, hwx⟩

/-! ## Sorting -/

theorem pairwise_descending (versions : List Version) :
    (descending versions).Pairwise (Version.atLeast · ·) :=
  List.pairwise_mergeSort Version.atLeast_trans Version.atLeast_total versions

/-- Sorting keeps the order within each class. -/
theorem filter_descending (versions : List Version) (w : Version) :
    (descending versions).filter (·.equivalent w) = versions.filter (·.equivalent w) := by
  have hclass : (versions.filter (·.equivalent w)).Pairwise (Version.atLeast · ·) := by
    refine List.pairwise_of_forall_mem_list ?_
    intro a ha b hb
    have haw : a.equivalent w = true := by simpa using (List.mem_filter.mp ha).2
    have hbw : b.equivalent w = true := by simpa using (List.mem_filter.mp hb).2
    rw [Version.equivalent_comm, ← Version.equivalent_congr hbw, Version.equivalent_comm] at haw
    exact Version.atLeast_of_equivalent haw
  -- A class is in order already, so it is found in the sorted list as it is, and nothing else.
  have hsub : (versions.filter (·.equivalent w)).Sublist (descending versions) :=
    List.sublist_mergeSort Version.atLeast_trans Version.atLeast_total hclass List.filter_sublist
  have hsub' := hsub.filter (·.equivalent w)
  rw [List.filter_filter] at hsub'
  simp only [Bool.and_self] at hsub'
  exact (hsub'.eq_of_length ((List.mergeSort_perm versions _).filter _).length_eq.symm).symm

theorem find?_descending (versions : List Version) (w : Version) :
    (descending versions).find? (·.equivalent w) = versions.find? (·.equivalent w) := by
  rw [← List.head?_filter, filter_descending, List.head?_filter]

/-! ## The listing -/

theorem pairwise_ofNames (names : List String) :
    (ofNames names).Pairwise fun a b => Version.compare a b = .gt := by
  unfold ofNames
  have h := pairwise_descending (names.filterMap versionOfRef?)
  cases hd : descending (names.filterMap versionOfRef?) with
  | nil => exact List.Pairwise.nil
  | cons v rest => exact pairwise_distinctAfter (hd ▸ h)

theorem find?_of_mem_ofNames {names : List String} {w : Version} (hw : w ∈ ofNames names) :
    (names.filterMap versionOfRef?).find? (·.equivalent w) = some w := by
  unfold ofNames at hw
  have h := pairwise_descending (names.filterMap versionOfRef?)
  rw [← find?_descending]
  cases hd : descending (names.filterMap versionOfRef?) with
  | nil => rw [hd] at hw; cases hw
  | cons v rest =>
    rw [hd] at h hw
    exact find?_of_mem_distinctAfter h hw

theorem exists_mem_ofNames {names : List String} {x : Version}
    (hx : x ∈ names.filterMap versionOfRef?) : ∃ w ∈ ofNames names, w.equivalent x = true := by
  unfold ofNames
  rw [← (List.mergeSort_perm _ Version.atLeast).mem_iff] at hx
  change x ∈ descending _ at hx
  cases hd : descending (names.filterMap versionOfRef?) with
  | nil => rw [hd] at hx; cases hx
  | cons v rest => exact exists_mem_distinctAfter (hd ▸ hx)

/-- A list that ranks strictly has at most one version of a class. -/
theorem filter_eq_singleton {versions : List Version} {v w : Version}
    (h : versions.Pairwise fun a b => Version.compare a b = .gt) (hw : w ∈ versions)
    (hwv : w.equivalent v = true) : versions.filter (·.equivalent v) = [w] := by
  have hmem : w ∈ versions.filter (·.equivalent v) := List.mem_filter.mpr ⟨hw, hwv⟩
  have hp := h.filter (·.equivalent v)
  cases hf : versions.filter (·.equivalent v) with
  | nil => rw [hf] at hmem; cases hmem
  | cons a rest =>
    cases rest with
    | nil => rw [hf, List.mem_singleton] at hmem; rw [hmem]
    | cons b rest =>
      have ha := (List.mem_filter.mp (hf ▸ List.mem_cons_self : a ∈ versions.filter _)).2
      have hb := (List.mem_filter.mp
        (hf ▸ List.mem_cons_of_mem _ List.mem_cons_self : b ∈ versions.filter _)).2
      rw [hf] at hp
      have hgt := (List.pairwise_cons.mp hp).1 b List.mem_cons_self
      have heq : a.equivalent b = true := by
        rw [Version.equivalent_comm, Version.equivalent_congr hb, Version.equivalent_comm]
        exact ha
      rw [Version.equivalent_iff, hgt] at heq
      cases heq

/-- The first member of a class among the versions comes from the first name of the class. -/
theorem exists_first_name {names : List String} {w : Version}
    (h : (names.filterMap versionOfRef?).find? (·.equivalent w) = some w) :
    ∃ before name after, names = before ++ name :: after ∧ NamesVersion name w ∧
      ∀ n ∈ before, ∀ u, NamesVersion n u → u.equivalent w = false := by
  obtain ⟨_, earlier, later, hsplit, hearlier⟩ := List.find?_eq_some_iff_append.mp h
  obtain ⟨front, back, rfl, hfront, hback⟩ := List.filterMap_eq_append_iff.mp hsplit
  obtain ⟨skipped, name, after, rfl, hskipped, hname, _⟩ := List.filterMap_eq_cons_iff.mp hback
  refine ⟨front ++ skipped, name, after, by simp, versionOfRef?_eq_some_iff.mp hname, ?_⟩
  intro n hn u hu
  rw [← versionOfRef?_eq_some_iff] at hu
  rcases List.mem_append.mp hn with hn | hn
  · simpa using hearlier u (hfront ▸ List.mem_filterMap.mpr ⟨n, hn, hu⟩)
  · rw [hskipped n hn] at hu
    cases hu

theorem exactListing_ofNames (names : List String) : ExactListing names (ofNames names) where
  descending := pairwise_ofNames names
  complete name hn v hv := by
    obtain ⟨w, hw, hwv⟩ := exists_mem_ofNames
      (List.mem_filterMap.mpr ⟨name, hn, versionOfRef?_eq_some_iff.mpr hv⟩)
    exact ⟨w, filter_eq_singleton (pairwise_ofNames names) hw hwv⟩
  first w hw := exists_first_name (find?_of_mem_ofNames hw)

theorem listVersions_eq {s : ObjectStore} {names : List String}
    (h : s.referenceNames = .ok names) : listVersions s = .ok (ofNames names) := by
  simp only [listVersions, h]
  rfl

/-- The listing of a store is exact, and a name that is not shaped like a version's makes no
difference to it. -/
theorem listVersions_exact (s : ObjectStore) (names : List String)
    (h : s.referenceNames = .ok names) :
    ∃ versions, listVersions s = .ok versions ∧ ExactListing names versions ∧
      ∀ before name after, names = before ++ name :: after → (∀ v, ¬ NamesVersion name v) →
        listVersions { s with referenceNames := .ok (before ++ after) } = .ok versions := by
  refine ⟨ofNames names, listVersions_eq h, exactListing_ofNames names, ?_⟩
  rintro before name after rfl hshape
  rw [listVersions_eq rfl]
  have hnone : versionOfRef? name = none :=
    Option.eq_none_iff_forall_ne_some.mpr fun v hv => hshape v (versionOfRef?_eq_some_iff.mp hv)
  simp [ofNames, List.filterMap_append, hnone]

/-- Versions that are enumerated from high to low stay in their places. -/
theorem ofNames_of_descending {names : List String}
    (h : (names.filterMap versionOfRef?).Pairwise fun a b => a.atLeast b = true) :
    ofNames names = distinct (names.filterMap versionOfRef?) := by
  rw [ofNames, descending, List.mergeSort_of_pairwise h]

/-- A branch, and two builds of one version. -/
def twoBuilds : MemoryStore :=
  ((MemoryStore.empty.addTag "refs/tags/v1.0.0+b" (.ofNat 1) 0).addTag
    "refs/tags/v1.0.0+a" (.ofNat 2) 0).addTag "refs/heads/main" (.ofNat 1) 0

theorem listVersions_exact_twoBuilds :
    twoBuilds.view.referenceNames =
      .ok ["refs/heads/main", "refs/tags/v1.0.0+a", "refs/tags/v1.0.0+b"] ∧
    ∃ versions, listVersions twoBuilds.view = .ok versions ∧
      (∃ v w, Version.parse "1.0.0+b" = .ok v ∧ versions.filter (·.equivalent v) = [w]) ∧
      listVersions { twoBuilds.view with
        referenceNames := .ok ["refs/tags/v1.0.0+a", "refs/tags/v1.0.0+b"] } = .ok versions := by
  refine ⟨rfl, ?_⟩
  obtain ⟨versions, hlist, hexact, hother⟩ := listVersions_exact twoBuilds.view
    ["refs/heads/main", "refs/tags/v1.0.0+a", "refs/tags/v1.0.0+b"] rfl
  refine ⟨versions, hlist, ?_, hother [] "refs/heads/main" _ rfl ?_⟩
  · obtain ⟨w, hw⟩ := hexact.complete "refs/tags/v1.0.0+b" (by simp) _ ⟨"1.0.0+b", rfl, rfl⟩
    exact ⟨_, w, rfl, hw⟩
  · intro v hv
    cases versionOfRef?_eq_some_iff.mpr hv

end Catalog

end TagRegistry
