import TagRegistry.Proofs.Serving
import TagRegistry.Proofs.VersionText

/-! Which version of a class is listed, and whether it can be downloaded.

In a store that enumerates its references in name order, a class of equal precedence is listed as
the version that its smallest tag names. Downloads look for a tag in the version's own spelling,
which may be another one of the class or none. Versions in normal form are told apart by precedence,
so that in a class of these the tags only differ in how they spell the same version. -/

namespace TagRegistry

open Std Text

/-! ## Normal forms -/

/-- A numeric identifier is written without leading zeros. -/
def IsNormalIdentifier (word : List Char) : Prop :=
  ∀ n, Decimal.word? word = some n → word = Decimal.digits n.toNat

namespace Version

/-- The segments behind the third do not end with zero, there is no metadata, and the numeric
identifiers of the prerelease have no leading zeros. -/
structure Normal (v : Version) : Prop where
  segments : v.segments.length = 3 ∨ v.segments.getLast? ≠ some 0
  metadata : v.metadata = none
  prerelease : ∀ ids, v.prerelease = some ids → ∀ word ∈ ids.toList, IsNormalIdentifier word

theorem eq_replicate_of_all {segments : List UInt64} (h : segments.all (· == 0) = true) :
    segments = List.replicate segments.length 0 :=
  List.eq_replicate_iff.mpr ⟨rfl, by simpa using h⟩

/-- Segments that compare alike only differ in zeros at the end. -/
theorem zeros_of_compareSegments {xs ys : List UInt64} (h : compareSegments xs ys = .eq) :
    ∃ k, xs = ys ++ List.replicate k 0 ∨ ys = xs ++ List.replicate k 0 := by
  induction xs generalizing ys with
  | nil =>
    rw [compareSegments] at h
    split at h
    · next hall => exact ⟨ys.length, .inr (eq_replicate_of_all hall)⟩
    · cases h
  | cons x xs ih =>
    cases ys with
    | nil =>
      rw [compareSegments] at h
      split at h
      · next hall => exact ⟨(x :: xs).length, .inl (eq_replicate_of_all hall)⟩
      · cases h
    | cons y ys =>
      rw [compareSegments, Ordering.then_eq_eq] at h
      obtain ⟨hxy, hrest⟩ := h
      cases compare_eq_iff_eq.mp hxy
      obtain ⟨k, rfl | rfl⟩ := ih hrest
      · exact ⟨k, .inl rfl⟩
      · exact ⟨k, .inr rfl⟩

/-- Zeros at the end would be behind the third segment. -/
theorem eq_of_zeros {xs ys : List UInt64} {k : Nat} (hxs : xs = ys ++ List.replicate k 0)
    (hys : 3 ≤ ys.length) (h : xs.length = 3 ∨ xs.getLast? ≠ some 0) : xs = ys := by
  cases k with
  | zero => simpa using hxs
  | succ k =>
    rcases h with h | h
    · have hlength := congrArg List.length hxs
      simp at hlength
      omega
    · exact absurd (by simp [hxs, List.replicate_succ']) h

theorem eq_of_compareIdentifier {x y : List Char} (hx : IsNormalIdentifier x)
    (hy : IsNormalIdentifier y) (h : compareIdentifier x y = .eq) : x = y := by
  unfold compareIdentifier at h
  split at h
  · next m n hm hn =>
    cases compare_eq_iff_eq.mp h
    rw [hx m hm, hy m hn]
  · cases h
  · cases h
  · exact compare_eq_iff_eq.mp h

theorem eq_of_compareLex {xs ys : List (List Char)} (hx : ∀ word ∈ xs, IsNormalIdentifier word)
    (hy : ∀ word ∈ ys, IsNormalIdentifier word)
    (h : List.compareLex compareIdentifier xs ys = .eq) : xs = ys := by
  induction xs generalizing ys with
  | nil =>
    cases ys with
    | nil => rfl
    | cons y ys => cases h
  | cons x xs ih =>
    cases ys with
    | nil => cases h
    | cons y ys =>
      rw [List.compareLex_cons_cons, Ordering.then_eq_eq] at h
      rw [List.forall_mem_cons] at hx hy
      rw [eq_of_compareIdentifier hx.1 hy.1 h.1, ih hx.2 hy.2 h.2]

theorem comparePrerelease_eq {x y : Option Identifiers}
    (hx : ∀ ids, x = some ids → ∀ word ∈ ids.toList, IsNormalIdentifier word)
    (hy : ∀ ids, y = some ids → ∀ word ∈ ids.toList, IsNormalIdentifier word)
    (h : comparePrerelease x y = .eq) : x = y := by
  cases x with
  | none =>
    cases y with
    | none => rfl
    | some y => cases h
  | some x =>
    cases y with
    | none => cases h
    | some y =>
      have hlist : x.toList = y.toList := eq_of_compareLex (hx x rfl) (hy y rfl) h
      have hchars : x.chars = y.chars := by
        rw [← x.intercalate_toList, ← y.intercalate_toList, hlist]
      cases x
      cases y
      cases hchars
      rfl

/-- Precedence tells versions in normal form apart. -/
theorem Normal.eq_of_equivalent {v w : Version} (hv : v.Normal) (hw : w.Normal)
    (h : v.equivalent w = true) : v = w := by
  rw [equivalent_iff, Version.compare, Ordering.then_eq_eq] at h
  obtain ⟨hsegments, hprerelease⟩ := h
  have hpre := comparePrerelease_eq hv.prerelease hw.prerelease hprerelease
  have hseg : v.segments = w.segments := by
    obtain ⟨k, hzeros | hzeros⟩ := zeros_of_compareSegments hsegments
    · exact eq_of_zeros hzeros w.three_le_segments hv.segments
    · exact (eq_of_zeros hzeros v.three_le_segments hw.segments).symm
  have hmeta : v.metadata = w.metadata := hv.metadata.trans hw.metadata.symm
  cases v
  cases w
  cases hpre
  cases hseg
  cases hmeta
  rfl

end Version

/-! ## The version that stands for a class -/

/-- `tag` is the smallest name in the class of `v`, and it names `w`. -/
structure SmallestTag (names : List String) (v : Version) (tag : String) (w : Version) : Prop where
  mem : tag ∈ names
  spells : NamesVersion tag w
  equivalent : w.equivalent v = true
  smallest : ∀ other ∈ names, ∀ u, NamesVersion other u → u.equivalent v = true → tag ≤ other

/-- Among the tags of the class of `v`, one is spelled like the version that it names, which is
`u`. -/
structure CanonicalTag (names : List String) (v u : Version) : Prop where
  mem : u.tagRef ∈ names
  equivalent : u.equivalent v = true

/-- Versions of one class are equivalent to each other. -/
theorem equivalent_of_class {u v w : Version} (hu : u.equivalent v = true)
    (hw : w.equivalent v = true) : u.equivalent w = true := by
  rw [Version.equivalent_comm] at hw
  exact (Version.equivalent_congr hu w).trans hw

/-- In name order, what is first enumerated is smallest. -/
theorem smallestTag_of_first {before after : List String} {tag : String} {v w : Version}
    (hsorted : (before ++ tag :: after).Pairwise (· ≤ ·)) (hspells : NamesVersion tag w)
    (hwv : w.equivalent v = true)
    (hfirst : ∀ n ∈ before, ∀ u, NamesVersion n u → u.equivalent w = false) :
    SmallestTag (before ++ tag :: after) v tag w := by
  refine ⟨by simp, hspells, hwv, ?_⟩
  intro other hother u hu huv
  have huw := equivalent_of_class huv hwv
  rcases List.mem_append.mp hother with hother | hother
  · rw [hfirst other hother u hu] at huw
    cases huw
  · rcases List.mem_cons.mp hother with rfl | hother
    · exact String.le_refl _
    · exact (List.pairwise_cons.mp (List.pairwise_append.mp hsorted).2.1).1 other hother

theorem exists_smallestTag {names : List String} {versions : List Version} {v w : Version}
    (hsorted : names.Pairwise (· ≤ ·)) (h : ExactListing names versions) (hw : w ∈ versions)
    (hwv : w.equivalent v = true) : ∃ tag, SmallestTag names v tag w := by
  obtain ⟨before, tag, after, rfl, hspells, hfirst⟩ := h.first w hw
  exact ⟨tag, smallestTag_of_first hsorted hspells hwv hfirst⟩

/-- Only one tag of a class is the smallest. -/
theorem SmallestTag.unique {names : List String} {v w w' : Version} {tag tag' : String}
    (h : SmallestTag names v tag w) (h' : SmallestTag names v tag' w') : tag = tag' ∧ w = w' := by
  have htag : tag = tag' := String.le_antisymm
    (h.smallest tag' h'.mem w' h'.spells h'.equivalent) (h'.smallest tag h.mem w h.spells h.equivalent)
  subst htag
  exact ⟨rfl, h.spells.unique h'.spells⟩

/-- The representative of the highest class is the latest version. -/
theorem head?_of_highest {names : List String} {versions : List Version} {v w : Version}
    (h : ExactListing names versions) (hw : w ∈ versions) (hwv : w.equivalent v = true)
    (hhighest : ∀ name ∈ names, ∀ u, NamesVersion name u → v.atLeast u = true) :
    versions.head? = some w := by
  cases versions with
  | nil => cases hw
  | cons top rest =>
    rcases List.mem_cons.mp hw with rfl | hrest
    · rfl
    · obtain ⟨before, name, after, rfl, hname, -⟩ := h.first top List.mem_cons_self
      have htop := hhighest name (by simp) top hname
      have hgt := (List.pairwise_cons.mp h.descending).1 w hrest
      have hle : (Version.compare top w).isLE = true :=
        Version.atLeast_trans w v top (Version.atLeast_of_equivalent hwv) htop
      rw [hgt] at hle
      cases hle

theorem resolveTree_ok_iff {s : ObjectStore} {v : Version} :
    (∃ tree, Catalog.resolveTree s v = .ok tree) ↔ ∃ commit, s.peel v.tagRef = .ok commit := by
  rw [Catalog.resolveTree, Catalog.resolveCommit]
  cases s.peel v.tagRef with
  | error cause =>
    constructor
    · rintro ⟨tree, h⟩
      cases h
    · rintro ⟨commit, h⟩
      cases h
  | ok commit => exact iff_of_true ⟨commit.tree, rfl⟩ ⟨commit, rfl⟩

/-- In name order, a class is listed as the version that its smallest tag names. That version
resolves exactly if a tag in its own spelling is there too, which in a class of versions in normal
form may be any tag in the spelling of its version. -/
theorem representatives {s : ObjectStore} {names : List String}
    (hnames : s.referenceNames = .ok names) (hsorted : names.Pairwise (· ≤ ·))
    (htags : ∀ v : Version, v.tagRef ∈ names ↔ ∃ commit, s.peel v.tagRef = .ok commit) :
    ∃ versions, Catalog.listVersions s = .ok versions ∧
      Catalog.latestVersion? s = .ok versions.head? ∧
      ∀ name ∈ names, ∀ v, NamesVersion name v → ∃ tag w, SmallestTag names v tag w ∧
        versions.filter (·.equivalent v) = [w] ∧
        ((∀ other ∈ names, ∀ u, NamesVersion other u → v.atLeast u = true) →
          versions.head? = some w) ∧
        ((∃ tree, Catalog.resolveTree s w = .ok tree) ↔
          ∃ u, CanonicalTag names v u ∧ NamesVersion tag u) ∧
        ((∀ other ∈ names, ∀ u, NamesVersion other u → u.equivalent v = true → u.Normal) →
          (∃ u, CanonicalTag names v u) → ∃ tree, Catalog.resolveTree s w = .ok tree) := by
  have hexact := Catalog.exactListing_ofNames names
  have hlist := Catalog.listVersions_eq hnames
  refine ⟨_, hlist, by rw [Catalog.latestVersion?, hlist]; rfl, ?_⟩
  intro name hname v hv
  obtain ⟨w, hclass⟩ := hexact.complete name hname v hv
  obtain ⟨hw, hwv⟩ : w ∈ Catalog.ofNames names ∧ w.equivalent v = true := by
    have hmem : w ∈ (Catalog.ofNames names).filter (·.equivalent v) := by simp [hclass]
    exact List.mem_filter.mp hmem
  obtain ⟨tag, htag⟩ := exists_smallestTag hsorted hexact hw hwv
  refine ⟨tag, w, htag, hclass, head?_of_highest hexact hw hwv, ?_, ?_⟩
  · rw [resolveTree_ok_iff, ← htags]
    constructor
    · intro hmem
      exact ⟨w, ⟨hmem, hwv⟩, htag.spells⟩
    · intro ⟨u, hu, hspells⟩
      rw [htag.spells.unique hspells]
      exact hu.mem
  · intro hnormal ⟨u, hu⟩
    have hsame : u = w :=
      (hnormal _ hu.mem u u.namesVersion_tagRef hu.equivalent).eq_of_equivalent
        (hnormal tag htag.mem w htag.spells hwv) (equivalent_of_class hu.equivalent hwv)
    rw [resolveTree_ok_iff, ← htags, ← hsame]
    exact hu.mem

theorem MemoryStore.exists_peel_iff {m : MemoryStore} {name : String} :
    (∃ commit, m.peel name = .ok commit) ↔ name ∈ m.refs.keys := by
  rw [peel]
  cases hlookup : m.refs.lookup name with
  | some commit => exact iff_of_true ⟨commit, rfl⟩ (mem_of_lookup hlookup)
  | none => exact iff_of_false nofun (Table.lookup_eq_none_iff.mp hlookup)

/-- A store with a version in two spellings. -/
def twoSpellings : MemoryStore :=
  (MemoryStore.empty.addTag "refs/tags/v1.0.0" (.ofNat 1) 0).addTag "refs/tags/v1.0" (.ofNat 1) 0

theorem representatives_twoSpellings :
    twoSpellings.view.referenceNames = .ok ["refs/tags/v1.0", "refs/tags/v1.0.0"] ∧
    CanonicalTag ["refs/tags/v1.0", "refs/tags/v1.0.0"] (.release 1 0 0) (.release 1 0 0) ∧
    ∃ versions w, Catalog.listVersions twoSpellings.view = .ok versions ∧
      SmallestTag ["refs/tags/v1.0", "refs/tags/v1.0.0"] (.release 1 0 0) "refs/tags/v1.0" w ∧
      versions.filter (·.equivalent (.release 1 0 0)) = [w] ∧
      ∃ tree, Catalog.resolveTree twoSpellings.view w = .ok tree := by
  have hnames : twoSpellings.view.referenceNames = .ok ["refs/tags/v1.0", "refs/tags/v1.0.0"] := rfl
  have hcanonical : CanonicalTag ["refs/tags/v1.0", "refs/tags/v1.0.0"] (.release 1 0 0)
      (.release 1 0 0) := ⟨List.mem_cons_of_mem _ List.mem_cons_self, rfl⟩
  have hparse : NamesVersion "refs/tags/v1.0" (.release 1 0 0) := ⟨"1.0", rfl, rfl⟩
  have hnormal : ∀ other ∈ ["refs/tags/v1.0", "refs/tags/v1.0.0"], ∀ u, NamesVersion other u →
      u.equivalent (.release 1 0 0) = true → u.Normal := by
    intro other hother u hu _
    have hrelease : NamesVersion other (.release 1 0 0) := by
      rcases List.mem_cons.mp hother with rfl | hother
      · exact hparse
      · rw [List.mem_singleton.mp hother]
        exact ⟨"1.0.0", rfl, rfl⟩
    rw [hu.unique hrelease]
    exact ⟨.inl rfl, rfl, nofun⟩
  obtain ⟨versions, hlist, -, hclass⟩ := representatives hnames (by decide)
    fun v => (MemoryStore.exists_peel_iff (m := twoSpellings)).symm
  obtain ⟨tag, w, htag, hfilter, -, -, hresolves⟩ :=
    hclass "refs/tags/v1.0" List.mem_cons_self _ hparse
  have hfirst : tag = "refs/tags/v1.0" := by
    have hle := htag.smallest "refs/tags/v1.0" List.mem_cons_self _ hparse rfl
    rcases List.mem_cons.mp htag.mem with htag | htag
    · exact htag
    · rw [List.mem_singleton.mp htag] at hle
      exact absurd hle (by decide)
  refine ⟨hnames, hcanonical, versions, w, hlist, hfirst ▸ htag, hfilter,
    hresolves hnormal ⟨_, hcanonical⟩⟩

/-- A build of a version in another spelling, which comes before the version itself. -/
def earlierBuild : MemoryStore :=
  (MemoryStore.empty.addTag "refs/tags/v1.0.0" (.ofNat 1) 0).addTag "refs/tags/v1.0+a" (.ofNat 1) 0

theorem canonical_tag_hidden :
    earlierBuild.view.referenceNames = .ok ["refs/tags/v1.0+a", "refs/tags/v1.0.0"] ∧
    ["refs/tags/v1.0+a", "refs/tags/v1.0.0"].Pairwise (· ≤ ·) ∧
    ∃ v w, NamesVersion "refs/tags/v1.0.0" v ∧ v.tagRef = "refs/tags/v1.0.0" ∧
      w.equivalent v = true ∧ Catalog.listVersions earlierBuild.view = .ok [w] ∧
      Catalog.latestVersion? earlierBuild.view = .ok (some w) ∧
      Catalog.resolveTree earlierBuild.view v = .ok ⟨.ofNat 1⟩ ∧
      Catalog.resolveTree earlierBuild.view w = .error (.refNotFound "refs/tags/v1.0.0+a") := by
  have hclass : Catalog.ofNames ["refs/tags/v1.0+a", "refs/tags/v1.0.0"] =
      [⟨[1, 0, 0], none, some ⟨['a'], rfl⟩, by decide⟩] := by
    rw [Catalog.ofNames_of_descending (by decide)]
    rfl
  have hnames : earlierBuild.view.referenceNames =
      .ok ["refs/tags/v1.0+a", "refs/tags/v1.0.0"] := rfl
  have hlist := Catalog.listVersions_eq hnames
  rw [hclass] at hlist
  have hlatest : Catalog.latestVersion? earlierBuild.view =
      .ok (some ⟨[1, 0, 0], none, some ⟨['a'], rfl⟩, by decide⟩) := by
    rw [Catalog.latestVersion?, hlist]
    rfl
  exact ⟨hnames, by decide, .release 1 0 0, _, ⟨"1.0.0", rfl, rfl⟩, rfl, rfl, hlist, hlatest, rfl,
    rfl⟩

end TagRegistry
