import TagRegistry.Proofs.BrokenReference
import TagRegistry.Proofs.DownloadIntegrity

/-! What a client is told about a listed version that leads to no commit.

Nothing is wrong with a module that has no tag in a version's own spelling, so the version is just
not found. A tag that cannot be followed is damage, which is logged. A broken tag is damage too, but
it is reported like one that is not there. -/

namespace TagRegistry

open Bytes (ascii)

/-! ## From the store to the answer -/

/-- The requests for the tree of a version, for its place and for its archive end in this error. -/
structure TreeFails (r : Registry) (access : StoreAccess) (space name provider version : String)
    (m : ServedModule) (s : ObjectStore) (v : Version) (e : RequestError)
    (log : List StoreFailure) : Prop where
  tree : (m.treeOf s v).outcome = (.error e, log)
  location (patience : Option Nat) :
    (r.serve access patience (.location space name provider version)).outcome = (.error e, log)
  archive (patience : Option Nat) (supplied : String) :
    (r.serve access patience (.archive space name provider version supplied)).outcome =
      (.error e, log)

section Failing

variable {r : Registry} {access : StoreAccess} {space name provider version : String}
variable {m : ServedModule} {s : ObjectStore} {v : Version}

theorem treeFails_of_treeOf {e : RequestError} {log : List StoreFailure}
    (h : Opens r access space name provider version m s v)
    (htree : (m.treeOf s v).outcome = (.error e, log)) :
    TreeFails r access space name provider version m s v e log where
  tree := htree
  location patience := by
    have hdownload : (r.downloadTree access space name provider version).outcome =
        (.error e, log) := by
      rw [Registry.downloadTree_eq, Registry.opening_of_opens h, htree]
    exact Serving.outcome_bind_error hdownload
  archive patience supplied :=
    Serving.outcome_bind_error
      (Registry.checkDownload_of_error h (Serving.outcome_bind_error htree))

/-- A version that is listed and leads to no commit is not found if the store says that there is no
such reference. Everything else is a failure of the store. -/
theorem ServedModule.treeOf_of_error (m : ServedModule) {names : List String} {cause : StoreError}
    (hnames : s.referenceNames = .ok names) (hlisted : Listed names v)
    (hpeel : s.peel v.tagRef = .error cause) :
    (m.treeOf s v).outcome =
      if cause.isRefNotFound then (.error .notFound, [])
      else (.error .internal, [⟨m, .store cause⟩]) := by
  have answer := m.treeOf_answer s v
  generalize (m.treeOf s v).outcome = outcome at answer
  cases answer with
  | unreadable read => rw [hnames] at read; cases read
  | unlisted read unlisted =>
    rw [hnames] at read
    cases read
    exact absurd hlisted unlisted
  | found _ _ peeled => rw [hpeel] at peeled; cases peeled
  | absent _ _ peeled absent =>
    rw [hpeel] at peeled
    cases peeled
    rw [if_pos absent]
  | damaged _ _ peeled damaged =>
    rw [hpeel] at peeled
    cases peeled
    rw [damaged, if_neg Bool.false_ne_true]

end Failing

theorem tagRef_below_refs (v : Version) : "refs/".toList <+: v.tagRef.toList := by
  have hchars : v.tagRef.toList = versionTagMark ++ v.chars := String.toList_ofList
  rw [hchars]
  exact ⟨"tags/v".toList ++ v.chars, rfl⟩

theorem StoreError.isRefNotFound_iff {cause : StoreError} :
    cause.isRefNotFound = true ↔ ∃ name, cause = .refNotFound name := by
  cases cause <;> simp [isRefNotFound]

/-- A reference is reported as not found exactly if there is none or if it is broken, and then a
listed version is not found. Every other failure is the store's, and is logged. -/
theorem missing_reference {repo : Repository} (hfiles : repo.FilesDamaged) :
    (∀ name unknown, repo.peel name = .error (.refNotFound unknown) ↔
      unknown = name ∧ "refs/".toList <+: name.toList ∧ (repo.Lacks name ∨ repo.Broken name)) ∧
    ∀ (r : Registry) (access : StoreAccess) (space name provider version : String)
      (m : ServedModule) (v : Version) (names : List String) (cause : StoreError),
      Opens r access space name provider version m repo.view v →
      repo.referenceNames = .ok names → Listed names v → repo.peel v.tagRef = .error cause →
      (repo.Lacks v.tagRef ∨ repo.Broken v.tagRef →
        TreeFails r access space name provider version m repo.view v .notFound []) ∧
      (¬(repo.Lacks v.tagRef ∨ repo.Broken v.tagRef) →
        TreeFails r access space name provider version m repo.view v .internal
          [⟨m, .store cause⟩]) := by
  refine ⟨fun name unknown => Repository.peel_refNotFound_iff hfiles, ?_⟩
  intro r access space name provider version m v names cause hopens hnames hlisted hcause
  have htree := m.treeOf_of_error (s := repo.view) hnames hlisted hcause
  constructor
  · intro hmissing
    have habsent :=
      (Repository.peel_refNotFound_iff hfiles).mpr ⟨rfl, tagRef_below_refs v, hmissing⟩
    rw [hcause] at habsent
    cases habsent
    exact treeFails_of_treeOf hopens htree
  · intro hthere
    have hother : cause.isRefNotFound ≠ true := by
      intro habsent
      obtain ⟨unknown, rfl⟩ := StoreError.isRefNotFound_iff.mp habsent
      exact hthere ((Repository.peel_refNotFound_iff hfiles).mp hcause).2.2
    rw [if_neg hother] at htree
    exact treeFails_of_treeOf hopens htree

/-! ## A commit that is not there and one that cannot be read -/

/-- A repository with these objects and with one tag for a version. -/
def oneTag (objects : List (ObjectId × StoredObject)) : Repository :=
  .ofTables objects [(ascii "refs/tags/v1.0.0", List.replicate 40 48)] []

/-- The module that is asked for below. -/
def servedOne : ServedModule := ⟨⟨"a", "b", "c", by decide⟩, ⟨[], "a.toml: module[0]"⟩⟩

theorem opens_oneTag (objects : List (ObjectId × StoredObject)) :
    Opens (oneModule "a") (fun _ => .ok (oneTag objects).view) "a" "b" "c" "1.0.0" servedOne
      (oneTag objects).view (.release 1 0 0) :=
  ⟨rfl, rfl, rfl, rfl⟩

theorem referenceNames_oneTag (objects : List (ObjectId × StoredObject)) :
    (oneTag objects).referenceNames = .ok ["refs/tags/v1.0.0"] := rfl

theorem listed_oneTag : Listed ["refs/tags/v1.0.0"] (.release 1 0 0) :=
  any_equivalent_iff.mp rfl

/-- The tag leads to an object that is missing. -/
theorem broken_oneTag : (oneTag []).Broken "refs/tags/v1.0.0" := by
  have hfound : (oneTag []).lookupRef (ascii "refs/tags/v1.0.0") =
      .ok (some (.object (.ofNat 0))) := rfl
  exact ⟨ascii "refs/tags/v1.0.0", by decide, .cut hfound .object (.missing rfl)⟩

theorem missing_reference_oneTag :
    TreeFails (oneModule "a") (fun _ => .ok (oneTag []).view) "a" "b" "c" "1.0.0" servedOne
      (oneTag []).view (.release 1 0 0) .notFound [] ∧
    TreeFails (oneModule "a") (fun _ => .ok (oneTag [(.ofNat 0, ⟨.commit, []⟩)]).view)
      "a" "b" "c" "1.0.0" servedOne (oneTag [(.ofNat 0, ⟨.commit, []⟩)]).view (.release 1 0 0)
      .internal [⟨servedOne, .store .damaged⟩] := by
  have hfiles (objects : List (ObjectId × StoredObject)) : (oneTag objects).FilesDamaged :=
    Repository.filesDamaged_ofTables _ _ _
  constructor
  · have hlost : (oneTag []).peel (Version.release 1 0 0).tagRef =
        .error (.refNotFound "refs/tags/v1.0.0") := rfl
    obtain ⟨-, hfails⟩ := missing_reference (hfiles [])
    exact (hfails _ _ _ _ _ _ _ _ _ _ (opens_oneTag []) (referenceNames_oneTag []) listed_oneTag
      hlost).1 (.inr broken_oneTag)
  · have hgarbled : (oneTag [(.ofNat 0, ⟨.commit, []⟩)]).peel (Version.release 1 0 0).tagRef =
        .error .damaged := rfl
    obtain ⟨hpeel, hfails⟩ := missing_reference (hfiles [(.ofNat 0, ⟨.commit, []⟩)])
    refine (hfails _ _ _ _ _ _ _ _ _ _ (opens_oneTag _) (referenceNames_oneTag _) listed_oneTag
      hgarbled).2 fun hmissing => ?_
    have habsent := (hpeel _ _).mpr ⟨rfl, tagRef_below_refs (.release 1 0 0), hmissing⟩
    rw [hgarbled] at habsent
    cases habsent

/-- A tag whose commit is missing is reported as if there were no tag. -/
theorem lost_commit_not_found :
    (oneTag []).peel "refs/tags/v1.0.0" = .error (.refNotFound "refs/tags/v1.0.0") ∧
      ¬(oneTag []).Lacks "refs/tags/v1.0.0" ∧
      (∃ names, (oneTag []).referenceNames = .ok names ∧ Listed names (.release 1 0 0)) ∧
      ((oneModule "a").serve (fun _ => .ok (oneTag []).view) none
        (.location "a" "b" "c" "1.0.0")).outcome = (.error .notFound, []) := by
  have hlost : (oneTag []).view.peel (Version.release 1 0 0).tagRef =
      .error (.refNotFound "refs/tags/v1.0.0") := rfl
  refine ⟨rfl, broken_oneTag.not_lacks, ⟨_, referenceNames_oneTag [], listed_oneTag⟩, ?_⟩
  have htree := servedOne.treeOf_of_error (referenceNames_oneTag []) listed_oneTag hlost
  exact (treeFails_of_treeOf (opens_oneTag []) htree).location none

end TagRegistry
