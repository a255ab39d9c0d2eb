import TagRegistry.Proofs.Serving
import TagRegistry.Proofs.TreeSpelling

/-! The link to an archive and the check of what is asked for under it.

An archive can be asked for under three spellings of the identifier of the version's tree, and
under nothing else. The link that a client is given leads to one of them, unless a part of the
module's coordinate is taken for a step on the way. -/

namespace TagRegistry

open Bytes (ascii)

/-! ## The check of a download -/

/-- A text under which the archive of a version can be asked for. -/
def Accepted (s : ObjectStore) (v : Version) (supplied : String) : Prop :=
  ∃ tree, HasTree s v tree ∧ supplied ∈ tree.spellings

namespace ServedModule

theorem checkTree_of_hasTree (m : ServedModule) {s : ObjectStore} {v : Version} {tree : TreeId}
    (h : HasTree s v tree) (supplied : String) :
    (m.checkTree s v supplied).outcome =
      if supplied ∈ tree.spellings then (.ok (), []) else (.error .notFound, []) := by
  rw [checkTree, Serving.outcome_bind_ok (m.treeOf_ok_iff.mpr h)]
  by_cases hx : supplied ∈ tree.spellings
  · rw [TreeId.names_iff.mpr hx, if_pos hx]
    rfl
  · rw [Bool.eq_false_iff.mpr (mt TreeId.names_iff.mp hx), if_neg hx]
    rfl

theorem checkTree_ok_iff (m : ServedModule) {s : ObjectStore} {v : Version} {supplied : String} :
    (m.checkTree s v supplied).outcome.1 = .ok () ↔ Accepted s v supplied := by
  constructor
  · intro h
    cases hanswer : (m.treeOf s v).outcome with
    | mk result log =>
      cases result with
      | error e =>
        rw [checkTree, Serving.outcome_bind_error hanswer] at h
        cases h
      | ok tree =>
        have htree := m.treeOf_ok_iff.mp (treeOf_of_ok (congrArg Prod.fst hanswer))
        rw [m.checkTree_of_hasTree htree] at h
        split at h
        · next hx => exact ⟨tree, htree, hx⟩
        · cases h
  · rintro ⟨tree, htree, hx⟩
    rw [m.checkTree_of_hasTree htree, if_pos hx]

theorem checkTree_of_readable (m : ServedModule) {s : ObjectStore} {v : Version}
    {supplied : String} (hr : Readable s v) (h : ¬Accepted s v supplied) :
    (m.checkTree s v supplied).outcome = (.error .notFound, []) := by
  by_cases ht : ∃ tree, HasTree s v tree
  · obtain ⟨tree, ht⟩ := ht
    rw [m.checkTree_of_hasTree ht, if_neg fun hx => h ⟨tree, ht, hx⟩]
  · exact Serving.outcome_bind_error (treeOf_of_readable hr fun tree htree => ht ⟨tree, htree⟩)

end ServedModule

/-! ## The link of a download -/

namespace Registry

variable {r : Registry} {access : StoreAccess} {space name provider version : String}

theorem downloadTree_of_ok {tree : TreeId}
    (h : (r.downloadTree access space name provider version).outcome.1 = .ok tree) :
    (r.downloadTree access space name provider version).outcome = (.ok tree, []) ∧
      ∃ m s v, Opens r access space name provider version m s v ∧ HasTree s v tree := by
  rw [downloadTree_eq] at h ⊢
  obtain ⟨m, s, v, hopens⟩ := opens_of_opening h
  rw [opening_of_opens hopens] at h ⊢
  have hanswer := ServedModule.treeOf_of_ok h
  exact ⟨hanswer, m, s, v, hopens, m.treeOf_ok_iff.mp hanswer⟩

theorem checkDownload_of_ok {m : ServedModule} {s : ObjectStore} {v : Version}
    {supplied : String} (h : Opens r access space name provider version m s v)
    (hcheck : (m.checkTree s v supplied).outcome = (.ok (), [])) :
    (r.checkDownload access space name provider version supplied).outcome =
      (.ok (m, s, v), []) := by
  rw [checkDownload_eq, opening_of_opens h, Serving.outcome_bind_ok hcheck]
  rfl

theorem checkDownload_of_error {m : ServedModule} {s : ObjectStore} {v : Version}
    {supplied : String} {e : RequestError} {log : List StoreFailure}
    (h : Opens r access space name provider version m s v)
    (hcheck : (m.checkTree s v supplied).outcome = (.error e, log)) :
    (r.checkDownload access space name provider version supplied).outcome = (.error e, log) := by
  rw [checkDownload_eq, opening_of_opens h, Serving.outcome_bind_error hcheck]

/-- What is answered when a client is told where an archive is. -/
theorem answer_location {access : StoreAccess} {patience : Option Nat}
    {space name provider version : Bytes}
    (h : (r.answer access patience (.location space name provider version)).1.status = 204) :
    ∃ s n p v tree, Operation.decode (.location space name provider version) =
        .ok (.location s n p v) ∧
      (r.downloadTree access s n p v).outcome.1 = .ok tree ∧
      (r.answer access patience (.location space name provider version)).1.headers.lookup
        "x-terraform-get" = some (archiveLink tree) := by
  unfold answer at h ⊢
  cases hdecode : Operation.decode (.location space name provider version) with
  | error parameter =>
    rw [hdecode] at h
    cases h
  | ok op =>
    obtain ⟨s, n, p, v, rfl, -⟩ := Operation.location_of_decode hdecode
    rw [hdecode] at h
    simp only [] at h ⊢
    cases htree : (r.downloadTree access s n p v).outcome with
    | mk result log =>
      cases result with
      | error e =>
        rw [serve, Serving.outcome_bind_error htree] at h
        cases e <;> cases h
      | ok tree =>
        have hok := (downloadTree_of_ok (congrArg Prod.fst htree)).1
        refine ⟨s, n, p, v, tree, rfl, congrArg Prod.fst htree, ?_⟩
        rw [serve, Serving.outcome_bind_ok hok]
        rfl

end Registry

/-! ## Following the link -/

theorem not_isStep_of_parse {raw : Bytes} {text : String} {v : Version}
    (hr : Operation.readText .version raw = .ok text) (hv : Version.parse text = .ok v) :
    ¬Path.IsStep raw := by
  rintro (rfl | rfl)
  · cases hr
    cases hv
  · cases hr
    cases hv

/-- A link leads to the archive of the same module and version exactly if no part of the
coordinate is taken for a step. -/
theorem ofPath?_follow_iff {path space name provider version : Bytes} {text : String} {v : Version}
    (h : Operation.ofPath? path = some (.location space name provider version))
    (hr : Operation.readText .version version = .ok text) (hv : Version.parse text = .ok v)
    (tree : TreeId) :
    Operation.ofPath? (Path.follow path (ascii (archiveLink tree))) =
        some (.archive space name provider version tree.archiveName) ↔
      ∀ segment ∈ [space, name, provider], ¬Path.IsStep segment := by
  have hname : tree.archiveName ≠ [] := by
    have hlength := tree.four_le_archiveName
    intro hnil
    rw [hnil] at hlength
    cases hlength
  rw [Operation.ofPath?_archive_iff hname, Path.splitOn_follow_iff (Operation.splitOn_of_location h)
    tree.splitOn_archiveLink (by decide) tree.not_isStep_archiveName]
  have hversion := not_isStep_of_parse hr hv
  simp only [List.forall_mem_cons, hversion, not_false_eq_true, true_and]

section Checked

variable {r : Registry} {access : StoreAccess} {space name provider version supplied : String}
variable {m : ServedModule} {s : ObjectStore} {v : Version} {tree : TreeId}

theorem checkDownload_of_accepted (h : Opens r access space name provider version m s v)
    (ha : Accepted s v supplied) :
    (r.checkDownload access space name provider version supplied).outcome =
      (.ok (m, s, v), []) := by
  obtain ⟨tree, htree, hx⟩ := ha
  refine Registry.checkDownload_of_ok h ?_
  rw [m.checkTree_of_hasTree htree, if_pos hx]

theorem checkDownload_of_not_accepted (h : Opens r access space name provider version m s v)
    (ha : ¬Accepted s v supplied) (served : ServedModule × ObjectStore × Version) :
    (r.checkDownload access space name provider version supplied).outcome.1 ≠ .ok served := by
  cases hcheck : (m.checkTree s v supplied).outcome with
  | mk result log =>
    cases result with
    | ok u => exact absurd (m.checkTree_ok_iff.mp (congrArg Prod.fst hcheck)) ha
    | error e =>
      rw [Registry.checkDownload_of_error h hcheck]
      nofun

/-- When a tag is moved, the identifier of the tree that it led to is that of no version. -/
theorem not_accepted_of_moved {commit : Snapshot} (hpeel : s.peel v.tagRef = .ok commit)
    (hne : commit.tree ≠ tree) : ¬Accepted s v (tree.text ++ ".tgz") := by
  rintro ⟨current, hcurrent, hx⟩
  obtain ⟨commit', hpeel', rfl⟩ := hcurrent.peeled
  rw [hpeel] at hpeel'
  cases hpeel'
  exact hne (TreeId.eq_of_mem_spellings hx (by simp [TreeId.spellings]))

theorem readable_of_peel {commit : Snapshot} (hnames : ∃ names, s.referenceNames = .ok names)
    (hpeel : s.peel v.tagRef = .ok commit) : Readable s v where
  names := hnames
  peeled h := by
    rw [hpeel] at h
    cases h

end Checked

/-- A client gets the archive of a version exactly under the spellings of its tree. Every link that
is given out leads there unless a part of the coordinate is taken for a step, and nowhere once
the tag is moved to another tree. -/
theorem download_integrity (r : Registry) (access : StoreAccess) :
    (∀ (m : ServedModule) (s : ObjectStore) (v : Version) (supplied : String),
      (m.checkTree s v supplied).outcome.1 = .ok () ↔ Accepted s v supplied) ∧
    (∀ (m : ServedModule) (s : ObjectStore) (v : Version) (supplied : String),
      Readable s v → ¬Accepted s v supplied →
        (m.checkTree s v supplied).outcome = (.error .notFound, [])) ∧
    ∀ path space name provider version : Bytes,
      Operation.ofPath? path = some (.location space name provider version) →
      (r.respondAt access "GET" path).1.status = 204 →
      ∃ tree : TreeId, (r.respondAt access "GET" path).1.headers.lookup "x-terraform-get" =
          some (archiveLink tree) ∧
        (Operation.ofPath? (Path.follow path (ascii (archiveLink tree))) =
            some (.archive space name provider version tree.archiveName) ↔
          ∀ segment ∈ [space, name, provider], ¬Path.IsStep segment) ∧
        ∃ n₁ n₂ n₃ n₄ : String,
          Operation.decode (.location space name provider version) =
            .ok (.location n₁ n₂ n₃ n₄) ∧
          Operation.decode (.archive space name provider version tree.archiveName) =
            .ok (.archive n₁ n₂ n₃ n₄ (tree.text ++ ".tgz")) ∧
          (∃ served, (r.checkDownload access n₁ n₂ n₃ n₄ (tree.text ++ ".tgz")).outcome =
            (.ok served, [])) ∧
          ∀ (moved : StoreAccess) (m : ServedModule) (s : ObjectStore) (v : Version)
            (commit : Snapshot), Opens r moved n₁ n₂ n₃ n₄ m s v → s.peel v.tagRef = .ok commit →
            commit.tree ≠ tree →
            (∀ served, (r.checkDownload moved n₁ n₂ n₃ n₄ (tree.text ++ ".tgz")).outcome.1 ≠
              .ok served) ∧
            ((∃ names, s.referenceNames = .ok names) →
              (r.checkDownload moved n₁ n₂ n₃ n₄ (tree.text ++ ".tgz")).outcome =
                (.error .notFound, [])) := by
  refine ⟨fun m _ _ _ => m.checkTree_ok_iff, fun m _ _ _ => m.checkTree_of_readable, ?_⟩
  intro path space name provider version hpath hstatus
  have hrespond : r.respondAt access "GET" path =
      r.answer access none (.location space name provider version) := by
    rw [Registry.respondAt, hpath]
    rfl
  rw [hrespond] at hstatus ⊢
  obtain ⟨n₁, n₂, n₃, n₄, tree, hdecode, htree, hlink⟩ := Registry.answer_location hstatus
  obtain ⟨-, m, s, v, hopens, hhas⟩ := Registry.downloadTree_of_ok htree
  obtain ⟨_, _, _, _, hsame, h₁, h₂, h₃, h₄⟩ := Operation.location_of_decode hdecode
  cases hsame
  refine ⟨tree, hlink, ofPath?_follow_iff hpath h₄ hopens.version tree, n₁, n₂, n₃, n₄, hdecode,
    Operation.decode_archive h₁ h₂ h₃ h₄ (readText_ascii tree.isPlain_archiveName .treeId),
    ⟨_, checkDownload_of_accepted hopens ⟨tree, hhas, by simp [TreeId.spellings]⟩⟩, ?_⟩
  intro moved m' s' v' commit hopens' hpeel hne
  have hrefused := not_accepted_of_moved hpeel hne
  refine ⟨checkDownload_of_not_accepted hopens' hrefused, fun hnames => ?_⟩
  exact Registry.checkDownload_of_error hopens'
    (m'.checkTree_of_readable (readable_of_peel hnames hpeel) hrefused)

/-! ## A link that works and one that does not -/

/-- A registry with one module `b/c` in a namespace. -/
def oneModule (space : String) : Registry where
  hostname := ⟨"registry.example".toList, by decide⟩
  modules := ⟨[(space, [("b", [("c", ⟨[], "a.toml: module[0]"⟩)])])]⟩

/-- A store with one version, at a tree. -/
def oneVersion (tree : ObjectId) : MemoryStore :=
  MemoryStore.empty.addTag "refs/tags/v1.0.0" tree 0

/-- A module that can be configured, with a version that can be downloaded, but not under the link
that is given out: the namespace `..` is taken for a step. -/
theorem link_leads_elsewhere :
    ¬∀ (r : Registry) (access : StoreAccess) (path space name provider version : Bytes),
      Operation.ofPath? path = some (.location space name provider version) →
      (r.respondAt access "GET" path).1.status = 204 →
      ∃ tree : TreeId, (r.respondAt access "GET" path).1.headers.lookup "x-terraform-get" =
          some (archiveLink tree) ∧
        Operation.ofPath? (Path.follow path (ascii (archiveLink tree))) =
          some (.archive space name provider version tree.archiveName) := by
  intro h
  have hpath : Operation.ofPath? (ascii "/../b/c/1.0.0/download") =
      some (.location (ascii "..") (ascii "b") (ascii "c") (ascii "1.0.0")) := by decide
  obtain ⟨tree, -, hlink⟩ := h (oneModule "..") (fun _ => .ok (oneVersion (.ofNat 1)).view)
    (ascii "/../b/c/1.0.0/download") _ _ _ _ hpath (by decide +kernel)
  have hversion : Operation.readText .version (ascii "1.0.0") = .ok "1.0.0" := rfl
  have hplain := (ofPath?_follow_iff hpath hversion rfl tree).mp hlink
  exact hplain (ascii "..") List.mem_cons_self (.inr rfl)

theorem opens_oneModule (id : ObjectId) :
    Opens (oneModule "a") (fun _ => .ok (oneVersion id).view) "a" "b" "c" "1.0.0"
      ⟨⟨"a", "b", "c", by decide⟩, ⟨[], "a.toml: module[0]"⟩⟩ (oneVersion id).view
      (.release 1 0 0) :=
  ⟨rfl, rfl, rfl, rfl⟩

theorem download_integrity_oneVersion :
    (∀ m : ServedModule, (m.checkTree (oneVersion (.ofNat 1)).view (.release 1 0 0) "1").outcome =
      (.error .notFound, [])) ∧
    ∃ tree : TreeId,
      Operation.ofPath? (Path.follow (ascii "/a/b/c/1.0.0/download") (ascii (archiveLink tree))) =
        some (.archive (ascii "a") (ascii "b") (ascii "c") (ascii "1.0.0") tree.archiveName) ∧
      (∃ served, ((oneModule "a").checkDownload (fun _ => .ok (oneVersion (.ofNat 1)).view)
        "a" "b" "c" "1.0.0" (tree.text ++ ".tgz")).outcome = (.ok served, [])) ∧
      ((oneModule "a").checkDownload (fun _ => .ok (oneVersion (.ofNat 2)).view)
        "a" "b" "c" "1.0.0" (tree.text ++ ".tgz")).outcome = (.error .notFound, []) := by
  obtain ⟨-, hrefused, hlink⟩ :=
    download_integrity (oneModule "a") fun _ => .ok (oneVersion (.ofNat 1)).view
  have hpeel (id : ObjectId) : (oneVersion id).view.peel (Version.release 1 0 0).tagRef =
      .ok ⟨⟨id⟩, 0⟩ := rfl
  have hnames (id : ObjectId) : (oneVersion id).view.referenceNames =
      .ok ["refs/tags/v1.0.0"] := rfl
  have hpath : Operation.ofPath? (ascii "/a/b/c/1.0.0/download") =
      some (.location (ascii "a") (ascii "b") (ascii "c") (ascii "1.0.0")) := by decide
  refine ⟨fun m => hrefused m _ _ _ (readable_of_peel ⟨_, hnames _⟩ (hpeel _)) ?_, ?_⟩
  · rintro ⟨tree, htree, hx⟩
    obtain ⟨commit, hcommit, rfl⟩ := htree.peeled
    cases (hpeel (.ofNat 1)).symm.trans hcommit
    revert hx
    decide
  · obtain ⟨tree, -, hplain, _, _, _, _, hdecode, -, hserved, hmoved⟩ :=
      hlink _ _ _ _ _ hpath (by decide +kernel)
    have htexts : Operation.decode (.location (ascii "a") (ascii "b") (ascii "c")
        (ascii "1.0.0")) = .ok (.location "a" "b" "c" "1.0.0") := rfl
    cases htexts.symm.trans hdecode
    have htree : tree = ⟨.ofNat 1⟩ := by
      refine Classical.byContradiction fun hne => ?_
      obtain ⟨served, hok⟩ := hserved
      exact checkDownload_of_not_accepted (opens_oneModule _)
        (not_accepted_of_moved (hpeel _) (Ne.symm hne)) served (congrArg Prod.fst hok)
    refine ⟨tree, hplain.mpr (by decide), hserved, ?_⟩
    exact (hmoved _ _ _ _ _ (opens_oneModule (.ofNat 2)) (hpeel _) (by rw [htree]; decide)).2
      ⟨_, hnames _⟩

end TagRegistry
