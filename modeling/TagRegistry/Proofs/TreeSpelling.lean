import TagRegistry.Proofs.RelativePath
import TagRegistry.Proofs.RequestText
import TagRegistry.Service.Download

/-! The texts under which the archive of a tree is asked for, and the link that ends in one. -/

namespace TagRegistry

open Bytes (slash dot ascii)

/-! ## Spellings of a tree -/

theorem toNat_of_isHexDigit {c : Char} (h : isHexDigit c = true) : c.toNat < 0x80 := by
  simp only [isHexDigit, Char.isDigit, Bool.or_eq_true, Bool.and_eq_true, decide_eq_true_eq] at h
  obtain ⟨-, hle⟩ | ⟨-, hle⟩ := h
  · exact Nat.lt_of_le_of_lt hle (by decide)
  · exact Nat.lt_of_le_of_lt hle (by decide)

namespace TreeId

theorem isHexDigit_of_mem_text {tree : TreeId} {c : Char} (h : c ∈ tree.text.toList) :
    isHexDigit c = true := by
  rw [text, ObjectId.text, String.toList_ofList] at h
  exact List.all_eq_true.mp tree.oid.hexadecimal c h

theorem text_injective {tree tree' : TreeId} (h : tree.text = tree'.text) : tree = tree' := by
  obtain ⟨digits, hlength, hhex⟩ := tree
  obtain ⟨digits', hlength', hhex'⟩ := tree'
  have hdigits : digits = digits' := by
    rw [← String.toList_inj, text, text, ObjectId.text, ObjectId.text, String.toList_ofList,
      String.toList_ofList] at h
    exact h
  subst hdigits
  rfl

/-- The texts under which the archive of a tree can be asked for. -/
def spellings (tree : TreeId) : List String :=
  [tree.text, tree.text ++ ".tgz", tree.text ++ ".tar.gz"]

/-- No identifier ends in a suffix. -/
theorem dropBack?_text (tree : TreeId) {suffix : List Char} (h : '.' ∈ suffix) :
    Text.dropBack? suffix tree.text.toList = none := by
  rw [Option.eq_none_iff_forall_ne_some]
  intro rest hrest
  rw [Text.dropBack?_eq_some_iff] at hrest
  have hdot : '.' ∈ tree.text.toList := by
    rw [hrest]
    exact List.mem_append_right rest h
  exact absurd (isHexDigit_of_mem_text hdot) (by decide)

/-- One suffix does not end in the other. -/
theorem dropBack?_tgz (front : List Char) :
    Text.dropBack? ".tar.gz".toList (front ++ ".tgz".toList) = none := by
  rw [Option.eq_none_iff_forall_ne_some]
  intro rest hrest
  rw [Text.dropBack?_eq_some_iff] at hrest
  have hsplit : rest ++ ".tar.gz".toList = (rest ++ ".ta".toList) ++ "r.gz".toList := by
    rw [List.append_assoc]
    rfl
  have hend := List.append_inj_right' (hrest.trans hsplit) rfl
  cases hend

end TreeId

theorem stripSuffix_of_some {supplied : String} {stem : List Char}
    (h : Text.dropBack? ".tar.gz".toList supplied.toList = some stem) :
    stripSuffix supplied = String.ofList stem := by
  simp only [stripSuffix, knownSuffixes, List.findSome?_cons, h]

theorem stripSuffix_of_none {supplied : String}
    (h : Text.dropBack? ".tar.gz".toList supplied.toList = none) :
    stripSuffix supplied =
      ((Text.dropBack? ".tgz".toList supplied.toList).map String.ofList).getD supplied := by
  simp only [stripSuffix, knownSuffixes, archiveSuffix, List.findSome?_cons, h, List.findSome?_nil]
  cases Text.dropBack? ".tgz".toList supplied.toList <;> rfl

theorem TreeId.names_iff {tree : TreeId} {supplied : String} :
    tree.names (stripSuffix supplied) = true ↔ supplied ∈ tree.spellings := by
  rw [names, beq_iff_eq, spellings]
  simp only [List.mem_cons, List.not_mem_nil, or_false]
  constructor
  · intro h
    cases htar : Text.dropBack? ".tar.gz".toList supplied.toList with
    | some stem =>
      rw [stripSuffix_of_some htar] at h
      rw [Text.dropBack?_eq_some_iff] at htar
      refine .inr (.inr ?_)
      have hstem : (String.ofList stem).toList = stem := String.toList_ofList
      rw [← String.toList_inj, htar, h, String.toList_append, hstem]
    | none =>
      rw [stripSuffix_of_none htar] at h
      cases htgz : Text.dropBack? ".tgz".toList supplied.toList with
      | some stem =>
        rw [htgz] at h
        rw [Text.dropBack?_eq_some_iff] at htgz
        refine .inr (.inl ?_)
        have hstem : (String.ofList stem).toList = stem := String.toList_ofList
        rw [← String.toList_inj, htgz, h, String.toList_append, Option.map_some, Option.getD_some,
          hstem]
      | none =>
        rw [htgz] at h
        exact .inl h.symm
  · -- The longer suffix is tried first, and no text ends in both.
    rintro (rfl | rfl | rfl)
    · rw [stripSuffix_of_none (tree.dropBack?_text (by decide)), tree.dropBack?_text (by decide)]
      rfl
    · have htgz : Text.dropBack? ".tgz".toList (tree.text ++ ".tgz").toList =
          some tree.text.toList := by
        rw [Text.dropBack?_eq_some_iff, String.toList_append]
      rw [stripSuffix_of_none (by rw [String.toList_append]; exact dropBack?_tgz _), htgz,
        Option.map_some, Option.getD_some, String.ofList_toList]
    · have htar : Text.dropBack? ".tar.gz".toList (tree.text ++ ".tar.gz").toList =
          some tree.text.toList := by
        rw [Text.dropBack?_eq_some_iff, String.toList_append]
      rw [stripSuffix_of_some htar, String.ofList_toList]

/-! ## The link -/

namespace TreeId

theorem isPlain_archiveName (tree : TreeId) : IsPlain (tree.text ++ ".tgz") := by
  intro c hc
  rw [String.toList_append] at hc
  rcases List.mem_append.mp hc with hc | hc
  · have hhex := isHexDigit_of_mem_text hc
    refine ⟨toNat_of_isHexDigit hhex, ?_, ?_⟩
    · rintro rfl
      cases hhex
    · rintro rfl
      cases hhex
  · have hsuffix : ∀ c ∈ ['.', 't', 'g', 'z'], c.toNat < 0x80 ∧ c ≠ '%' ∧ c ≠ '/' := by simp
    exact hsuffix c hc

/-- The octets of the name that a link ends in. -/
def archiveName (tree : TreeId) : Bytes := ascii (tree.text ++ ".tgz")

theorem ascii_archiveLink (tree : TreeId) :
    ascii (archiveLink tree) =
      [dot] ++ slash :: (ascii "download" ++ slash :: tree.archiveName) := by
  have hfront : ascii "./download/" = [dot] ++ slash :: (ascii "download" ++ [slash]) := by decide
  have happend (a b : String) : ascii (a ++ b) = ascii a ++ ascii b := by
    rw [ascii, String.toList_append, List.map_append]
    rfl
  rw [archiveLink, archiveSuffix, archiveName, String.append_assoc, happend, hfront]
  simp only [List.append_assoc, List.cons_append, List.nil_append]

theorem splitOn_archiveLink (tree : TreeId) :
    (ascii (archiveLink tree)).splitOn slash = [[dot], ascii "download", tree.archiveName] := by
  have hname : slash ∉ tree.archiveName :=
    not_mem_ascii (c := '/') (fun x hx => ⟨(tree.isPlain_archiveName x hx).1,
      (tree.isPlain_archiveName x hx).2.2⟩) (by decide)
  rw [ascii_archiveLink, List.splitOn_append_cons_self_of_not_mem (by decide),
    List.splitOn_append_cons_self_of_not_mem (by decide), List.splitOn_eq_singleton hname]

theorem four_le_archiveName (tree : TreeId) : 4 ≤ tree.archiveName.length := by
  rw [archiveName, ascii, String.toList_append, List.length_map, List.length_append]
  exact Nat.le_add_left 4 _

theorem not_isStep_archiveName (tree : TreeId) : ¬Path.IsStep tree.archiveName := by
  have hlength := tree.four_le_archiveName
  rintro (h | h)
  · rw [h] at hlength
    exact absurd hlength (by decide)
  · rw [h] at hlength
    exact absurd hlength (by decide)

/-- No text asks for the archives of two trees. -/
theorem eq_of_mem_spellings {tree tree' : TreeId} {supplied : String}
    (h : supplied ∈ tree.spellings) (h' : supplied ∈ tree'.spellings) : tree = tree' := by
  have hname := names_iff.mpr h
  have hname' := names_iff.mpr h'
  rw [names, beq_iff_eq] at hname hname'
  exact text_injective (hname.trans hname'.symm)

end TreeId

end TagRegistry
