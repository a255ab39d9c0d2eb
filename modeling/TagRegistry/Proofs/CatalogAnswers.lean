import TagRegistry.Proofs.Representative
import TagRegistry.Proofs.Stages

/-! The questions about the versions of a store.

Whether a version exists is found out by looking through the names of the references, the list of
versions by sorting them, and the tree of a version by asking for the tag in its own spelling. The
first two go by precedence and agree. The tag in a version's own spelling is a name like any other
and is read back as that version, so a version that has such a tag is never refused. -/

namespace TagRegistry.Catalog

variable {s : ObjectStore} {names : List String} {v : Version}

/-! ## Existence and the list -/

/-- A version is looked for among the names and among the listed versions with the same result. -/
theorem listed_iff : Listed names v ↔ ∃ w ∈ ofNames names, w.equivalent v = true := by
  constructor
  · rintro ⟨name, hname, u, hu, huv⟩
    obtain ⟨w, hw, hwu⟩ := exists_mem_ofNames
      (List.mem_filterMap.mpr ⟨name, hname, versionOfRef?_eq_some_iff.mpr hu⟩)
    exact ⟨w, hw, (Version.equivalent_congr hwu v).trans huv⟩
  · rintro ⟨w, hw, hwv⟩
    obtain ⟨before, name, after, rfl, hname, -⟩ := exists_first_name (find?_of_mem_ofNames hw)
    exact ⟨name, by simp, w, hname, hwv⟩

/-- Nothing ranks higher than the first version of the list. -/
theorem head?_atLeast {versions : List Version} {w : Version}
    (h : versions.Pairwise fun a b => Version.compare a b = .gt) (hw : w ∈ versions) :
    ∃ top, versions.head? = some top ∧ top.atLeast w = true := by
  cases versions with
  | nil => cases hw
  | cons top rest =>
    refine ⟨top, rfl, ?_⟩
    rcases List.mem_cons.mp hw with rfl | hrest
    · exact Version.atLeast_of_equivalent (Version.equivalent_refl w)
    · have hgt := (List.pairwise_cons.mp h).1 w hrest
      rw [Version.atLeast, Std.OrientedCmp.gt_iff_lt.mp hgt]
      rfl

/-- The latest version ranks at least as high as every version that a name stands for. -/
theorem head?_ofNames {name : String} (hname : name ∈ names) (hv : NamesVersion name v) :
    ∃ top, (ofNames names).head? = some top ∧ top.atLeast v = true := by
  obtain ⟨w, hw, hwv⟩ := listed_iff.mp ⟨name, hname, v, hv, Version.equivalent_refl v⟩
  obtain ⟨top, htop, htw⟩ := head?_atLeast (pairwise_ofNames names) hw
  exact ⟨top, htop, Version.atLeast_trans top w v htw (Version.atLeast_of_equivalent hwv)⟩

/-- What a store with these names answers about its versions. -/
structure Answers (s : ObjectStore) (names : List String) (versions : List Version) : Prop where
  listed : listVersions s = .ok versions
  latest : latestVersion? s = .ok versions.head?
  highest : ∀ name ∈ names, ∀ u, NamesVersion name u →
    ∃ top, versions.head? = some top ∧ top.atLeast u = true
  absent : versions.head? = none ↔ ∀ name ∈ names, ∀ u, ¬NamesVersion name u
  exists_iff : ∀ v, ∃ found, hasVersion s v = .ok found ∧
    (found = true ↔ ∃ w ∈ versions, w.equivalent v = true)

theorem answers_ofNames (h : s.referenceNames = .ok names) : Answers s names (ofNames names) where
  listed := listVersions_eq h
  latest := by
    rw [latestVersion?, listVersions_eq h]
    rfl
  highest _ hname _ hu := head?_ofNames hname hu
  absent := by rw [List.head?_eq_none_iff, ofNames_eq_nil_iff]
  exists_iff v := ⟨_, hasVersion_eq h v, any_equivalent_iff.trans listed_iff⟩

/-! ## Existence and the tree -/

theorem resolveTree_eq_ok_iff {tree : TreeId} :
    resolveTree s v = .ok tree ↔ ∃ commit, s.peel v.tagRef = .ok commit ∧ commit.tree = tree := by
  rw [resolveTree, resolveCommit]
  cases s.peel v.tagRef with
  | ok commit =>
    constructor
    · rintro ⟨⟩
      exact ⟨commit, rfl, rfl⟩
    · rintro ⟨_, ⟨⟩, rfl⟩
      rfl
  | error cause =>
    constructor
    · rintro ⟨⟩
    · rintro ⟨_, ⟨⟩, -⟩

/-- A version whose own tag leads to a tree exists, if only names that are listed lead anywhere. -/
theorem listed_of_resolveTree {tree : TreeId}
    (htags : ∀ name commit, s.peel name = .ok commit → name ∈ names)
    (h : resolveTree s v = .ok tree) : Listed names v := by
  obtain ⟨commit, hpeel, -⟩ := resolveTree_eq_ok_iff.mp h
  exact ⟨v.tagRef, htags _ _ hpeel, v, v.namesVersion_tagRef, Version.equivalent_refl v⟩

theorem treeOf_ok_iff_resolveTree (m : ServedModule) {tree : TreeId}
    (hnames : s.referenceNames = .ok names)
    (htags : ∀ name commit, s.peel name = .ok commit → name ∈ names) :
    (m.treeOf s v).outcome.1 = .ok tree ↔ resolveTree s v = .ok tree := by
  constructor
  · intro h
    have htree := m.treeOf_ok_iff.mp (ServedModule.treeOf_of_ok h)
    exact resolveTree_eq_ok_iff.mpr htree.peeled
  · intro h
    have htree : HasTree s v tree :=
      ⟨⟨names, hnames, listed_of_resolveTree htags h⟩, resolveTree_eq_ok_iff.mp h⟩
    rw [m.treeOf_ok_iff.mpr htree]

/-! ## All questions -/

/-- The answers about the versions of a store agree with each other, and a store that does not list
its references fails to give them. -/
theorem answers_agree (s : ObjectStore) :
    (∀ cause, s.referenceNames = .error cause → listVersions s = .error cause ∧
      latestVersion? s = .error cause ∧ ∀ v, hasVersion s v = .error cause) ∧
    ∀ names, s.referenceNames = .ok names → ∃ versions, Answers s names versions ∧
      ((∀ name commit, s.peel name = .ok commit → name ∈ names) → ∀ v tree,
        (resolveTree s v = .ok tree → hasVersion s v = .ok true) ∧
        ∀ m : ServedModule, (m.treeOf s v).outcome.1 = .ok tree ↔ resolveTree s v = .ok tree) := by
  constructor
  · intro cause h
    refine ⟨listVersions_of_error h, ?_, fun v => ?_⟩
    · rw [latestVersion?, listVersions_of_error h]
      rfl
    · rw [hasVersion, h]
      rfl
  · intro names hnames
    refine ⟨ofNames names, answers_ofNames hnames, fun htags v tree => ⟨fun h => ?_, fun m => ?_⟩⟩
    · rw [hasVersion_eq hnames, any_equivalent_iff.mpr (listed_of_resolveTree htags h)]
    · exact treeOf_ok_iff_resolveTree m hnames htags

theorem answers_agree_twoSpellings :
    latestVersion? twoSpellings.refuseListing.view = .error .listingRefused ∧
    twoSpellings.view.referenceNames = .ok ["refs/tags/v1.0", "refs/tags/v1.0.0"] ∧
    hasVersion twoSpellings.view (.release 1 0 0) = .ok true ∧
    (servedOne.treeOf twoSpellings.view (.release 1 0 0)).outcome.1 = .ok ⟨.ofNat 1⟩ ∧
    ∃ versions top, Answers twoSpellings.view ["refs/tags/v1.0", "refs/tags/v1.0.0"] versions ∧
      versions.head? = some top ∧ top.atLeast (.release 1 0 0) = true := by
  have hnames : twoSpellings.view.referenceNames = .ok ["refs/tags/v1.0", "refs/tags/v1.0.0"] := rfl
  have htags (name : String) (commit : Snapshot) (h : twoSpellings.view.peel name = .ok commit) :
      name ∈ ["refs/tags/v1.0", "refs/tags/v1.0.0"] :=
    (MemoryStore.exists_peel_iff (m := twoSpellings)).mp ⟨commit, h⟩
  have htree : resolveTree twoSpellings.view (.release 1 0 0) = .ok ⟨.ofNat 1⟩ := rfl
  obtain ⟨hrefused, -⟩ := answers_agree twoSpellings.refuseListing.view
  obtain ⟨-, hlisted⟩ := answers_agree twoSpellings.view
  obtain ⟨versions, hanswers, htrees⟩ := hlisted _ hnames
  obtain ⟨hhas, hserved⟩ := htrees htags (.release 1 0 0) ⟨.ofNat 1⟩
  obtain ⟨top, htop, hhighest⟩ :=
    hanswers.highest "refs/tags/v1.0" List.mem_cons_self (.release 1 0 0) ⟨"1.0", rfl, rfl⟩
  exact ⟨(hrefused _ rfl).2.1, hnames, hhas htree, (hserved servedOne).mpr htree, versions, top,
    hanswers, htop, hhighest⟩

end TagRegistry.Catalog
