import Mathlib.Data.List.Chain
import TagRegistry.Proofs.RequestText
import TagRegistry.Proofs.VersionText
import TagRegistry.Repository.RefName
import TagRegistry.Service.Registry

/-! Versions in names of references.

Nearly all that a version can be written as is legal in the name of a reference: a version has no
forbidden characters, and its dots stand apart and inside. What remains is a text that ends with
`.lock`, and one that makes the name too long. -/

namespace TagRegistry

open Bytes (ascii slash dot)

/-! ## Dots that stand apart -/

/-- A text has no two dots in a row and none at its ends. -/
structure DotsApart (cs : List Char) : Prop where
  ne_nil : cs ≠ []
  apart : cs.IsChain fun a b => ¬(a = '.' ∧ b = '.')
  head : ∀ c ∈ cs.head?, c ≠ '.'
  last : ∀ c ∈ cs.getLast?, c ≠ '.'

/-- Two such texts can be put together with any character. -/
theorem DotsApart.append_cons {xs ys : List Char} (hx : DotsApart xs) (hy : DotsApart ys)
    (c : Char) : DotsApart (xs ++ c :: ys) where
  ne_nil := by simp
  apart := by
    refine hx.apart.append (hy.apart.cons ?_) ?_
    · intro y hmem h
      exact hy.head y hmem h.2
    · intro x hmem y _ h
      exact hx.last x hmem h.1
  head := by
    obtain ⟨x, xs, rfl⟩ := List.exists_cons_of_ne_nil hx.ne_nil
    exact hx.head
  last := by
    obtain ⟨y, ys, rfl⟩ := List.exists_cons_of_ne_nil hy.ne_nil
    simpa using hy.last

theorem dotsApart_of_not_mem {word : List Char} (hne : word ≠ []) (h : '.' ∉ word) :
    DotsApart word where
  ne_nil := hne
  apart := by
    refine (List.isChain_isInfix word).imp ?_
    intro a b hpair hdots
    have hmem := hpair.subset List.mem_cons_self
    exact h (hdots.1 ▸ hmem)
  head c hc := by
    rintro rfl
    exact h (List.mem_of_mem_head? hc)
  last c hc := by
    rintro rfl
    exact h (List.mem_of_mem_getLast? hc)

theorem dotsApart_intercalate {words : List (List Char)} (hne : words ≠ [])
    (h : ∀ word ∈ words, word ≠ [] ∧ '.' ∉ word) : DotsApart (['.'].intercalate words) := by
  induction words with
  | nil => exact absurd rfl hne
  | cons word words ih =>
    rw [List.forall_mem_cons] at h
    have hword := dotsApart_of_not_mem h.1.1 h.1.2
    cases words with
    | nil => simpa using hword
    | cons next words =>
      rw [List.intercalate_cons_cons, List.append_assoc]
      exact hword.append_cons (ih (List.cons_ne_nil _ _) h.2) '.'

theorem Identifiers.dotsApart (ids : Identifiers) : DotsApart ids.chars := by
  rw [← ids.intercalate_toList]
  refine dotsApart_intercalate (List.splitOn_ne_nil _ _) ?_
  intro word hword
  exact ⟨(ids.word hword).1, Text.not_mem_of_mem_splitOn hword⟩

theorem DotsApart.append_renderPart {front : List Char} (h : DotsApart front) (mark : Char)
    (ids : Option Identifiers) : DotsApart (front ++ Version.renderPart mark ids) := by
  cases ids with
  | none =>
    rw [Version.renderPart, List.append_nil]
    exact h
  | some ids => exact h.append_cons ids.dotsApart mark

namespace Version

theorem dotsApart_renderSegments {segments : List UInt64} (hne : segments ≠ []) :
    DotsApart (renderSegments segments) := by
  refine dotsApart_intercalate (by simpa using hne) ?_
  intro word hword
  obtain ⟨n, -, rfl⟩ := List.mem_map.mp hword
  refine ⟨Text.Decimal.digits_ne_nil _, fun hdot => ?_⟩
  exact absurd (Text.Decimal.isDigit_of_mem_digits hdot) (by decide)

theorem dotsApart_chars (v : Version) : DotsApart v.chars :=
  have hfront := (dotsApart_renderSegments v.segments_ne_nil).append_renderPart '-' v.prerelease
  hfront.append_renderPart '+' v.metadata

end Version

/-! ## From characters to octets -/

theorem Utf8.encode_ascii {text : String} (h : ∀ c ∈ text.toList, c.toNat < 0x80) :
    encode text = ascii text := by
  rw [encode, encodeChars, ascii]
  generalize text.toList = cs at h
  induction cs with
  | nil => rfl
  | cons c cs ih =>
    rw [List.forall_mem_cons] at h
    have hoctet : String.utf8EncodeChar c = [UInt8.ofNat c.toNat] := by
      simp only [String.utf8EncodeChar]
      exact if_pos (Nat.le_of_lt_succ h.1)
    rw [List.flatMap_cons, List.map_cons, ih h.2, hoctet]
    rfl

/-- ASCII texts are determined by their octets. -/
theorem eq_of_octets {cs ds : List Char} (hc : ∀ c ∈ cs, c.toNat < 0x80)
    (hd : ∀ d ∈ ds, d.toNat < 0x80)
    (h : cs.map (fun c => UInt8.ofNat c.toNat) = ds.map fun d => UInt8.ofNat d.toNat) :
    cs = ds := by
  have hscan := congrArg Utf8.scan h
  rw [Utf8.scan_ascii hc, Utf8.scan_ascii hd] at hscan
  exact (List.map_inj_right fun _ _ => Option.some.inj).mp hscan

/-- The characters of versions are none that names of references have rules about, the dot apart. -/
theorem unruled_octet : ∀ n < 128, (n = 43 ∨ n = 45 ∨ n = 46 ∨ (48 ≤ n ∧ n ≤ 57) ∨
    (65 ≤ n ∧ n ≤ 90) ∨ (97 ≤ n ∧ n ≤ 122)) → RefName.isForbidden (UInt8.ofNat n) = false ∧
      UInt8.ofNat n ≠ slash ∧ UInt8.ofNat n ≠ 64 ∧ (UInt8.ofNat n = dot → n = 46) := by
  decide

namespace Version

theorem toNat_of_mem_chars {v : Version} {c : Char} (h : c ∈ v.chars) :
    c.toNat < 128 ∧ (c.toNat = 43 ∨ c.toNat = 45 ∨ c.toNat = 46 ∨
      (48 ≤ c.toNat ∧ c.toNat ≤ 57) ∨ (65 ≤ c.toNat ∧ c.toNat ≤ 90) ∨
        (97 ≤ c.toNat ∧ c.toNat ≤ 122)) := by
  rcases mem_chars h with rfl | rfl | h
  · decide
  · decide
  · have hnat := toNat_of_isIdentifierChar h
    omega

/-- The octets of a version's text. -/
def octets (v : Version) : Bytes := v.chars.map fun c => UInt8.ofNat c.toNat

theorem unruled {v : Version} {b : UInt8} (h : b ∈ v.octets) :
    RefName.isForbidden b = false ∧ b ≠ slash ∧ b ≠ 64 := by
  obtain ⟨c, hc, rfl⟩ := List.mem_map.mp h
  obtain ⟨hlow, hrange⟩ := toNat_of_mem_chars hc
  obtain ⟨hforbidden, hslash, hat, -⟩ := unruled_octet _ hlow hrange
  exact ⟨hforbidden, hslash, hat⟩

theorem eq_dot_of_octet {v : Version} {c : Char} (h : c ∈ v.chars)
    (hdot : UInt8.ofNat c.toNat = dot) : c = '.' := by
  obtain ⟨hlow, hrange⟩ := toNat_of_mem_chars h
  obtain ⟨-, -, -, hnat⟩ := unruled_octet _ hlow hrange
  exact Char.toNat_inj.mp (hnat hdot)

theorem toList_tagRef (v : Version) : v.tagRef.toList = "refs/tags/v".toList ++ v.chars := by
  rw [tagRef, String.toList_ofList]
  rfl

theorem toNat_of_mem_tagRef (v : Version) : ∀ c ∈ v.tagRef.toList, c.toNat < 0x80 := by
  intro c hc
  rw [toList_tagRef, List.mem_append] at hc
  rcases hc with hc | hc
  · have hfront : "refs/tags/v".toList.all (·.toNat < 0x80) = true := by decide
    simpa using List.all_eq_true.mp hfront c hc
  · exact (toNat_of_mem_chars hc).1

theorem encode_tagRef (v : Version) :
    Utf8.encode v.tagRef = ascii "refs/tags/v" ++ v.octets := by
  rw [Utf8.encode_ascii v.toNat_of_mem_tagRef, ascii, toList_tagRef, List.map_append]
  rfl

theorem decode?_encode_tagRef (v : Version) :
    Utf8.decode? (Utf8.encode v.tagRef) = some v.tagRef := by
  rw [Utf8.encode_ascii v.toNat_of_mem_tagRef, Utf8.decode?_ascii v.toNat_of_mem_tagRef]

end Version

namespace RefName

/-- No pair is a chain of neighbours that are not this pair. -/
theorem hasPair_eq_false_iff {x y : UInt8} {bs : Bytes} :
    hasPair x y bs = false ↔ bs.IsChain fun a b => ¬(a = x ∧ b = y) := by
  induction bs with
  | nil => simp [hasPair]
  | cons a bs ih =>
    cases bs with
    | nil => simp [hasPair]
    | cons b bs => simp [hasPair, ih]

end RefName

theorem Version.hasPair_dots (v : Version) : RefName.hasPair dot dot (118 :: v.octets) = false := by
  rw [RefName.hasPair_eq_false_iff]
  have hchain : v.octets.IsChain fun a b => ¬(a = dot ∧ b = dot) := by
    rw [octets, List.isChain_map]
    refine v.dotsApart_chars.apart.imp_of_mem_imp ?_
    intro a b ha hb hapart hdots
    exact hapart ⟨eq_dot_of_octet ha hdots.1, eq_dot_of_octet hb hdots.2⟩
  refine hchain.cons ?_
  intro b _ h
  exact absurd h.1 (by decide)

/-! ## The name of a version's tag -/

namespace Version

theorem octets_ne_nil (v : Version) : v.octets ≠ [] := by
  obtain ⟨c, cs, hchars, -⟩ := v.exists_digit_cons_chars
  rw [octets, hchars]
  exact List.cons_ne_nil _ _

theorem getLast?_octets (v : Version) : ∀ b ∈ v.octets.getLast?, b ≠ slash ∧ b ≠ dot := by
  intro b hb
  have hmem := List.mem_of_mem_getLast? hb
  refine ⟨(unruled hmem).2.1, ?_⟩
  rw [octets, List.getLast?_map] at hb
  obtain ⟨c, hc, rfl⟩ := Option.map_eq_some_iff.mp hb
  intro hdot
  exact v.dotsApart_chars.last c hc (eq_dot_of_octet (List.mem_of_mem_getLast? hc) hdot)

/-- Only its end can make a version illegal as a part of a name. -/
theorem isSegment_octets (v : Version) : RefName.isSegment (118 :: v.octets) =
    !(ascii ".lock").isSuffixOf (118 :: v.octets) := by
  have hforbidden : (118 :: v.octets).any RefName.isForbidden = false := by
    rw [List.any_eq_false]
    intro b hb
    rcases List.mem_cons.mp hb with rfl | hb
    · decide
    · rw [(unruled hb).1]
      decide
  have hat : RefName.hasPair 64 123 (118 :: v.octets) = false := by
    rw [RefName.hasPair_eq_false_iff]
    refine (List.isChain_isInfix _).imp ?_
    intro a b hpair h
    have hmem : a ∈ 118 :: v.octets := hpair.subset List.mem_cons_self
    rcases List.mem_cons.mp hmem with rfl | hmem
    · cases h.1
    · exact (unruled hmem).2.2 h.1
  rw [RefName.isSegment, hforbidden, v.hasPair_dots, hat]
  rfl

theorem splitOn_tagRef (v : Version) : (Utf8.encode v.tagRef).splitOn slash =
    [ascii "refs", ascii "tags", 118 :: v.octets] := by
  have hname : Utf8.encode v.tagRef =
      [slash].intercalate [ascii "refs", ascii "tags", 118 :: v.octets] := by
    rw [encode_tagRef, List.intercalate_cons_cons, List.intercalate_cons_cons,
      List.intercalate_singleton]
    rfl
  rw [hname]
  refine List.splitOn_intercalate slash ?_ (List.cons_ne_nil _ _)
  intro segment hsegment hslash
  rcases List.mem_cons.mp hsegment with rfl | hsegment
  · revert hslash
    decide
  · rcases List.mem_cons.mp hsegment with rfl | hsegment
    · revert hslash
      decide
    · rw [List.mem_singleton.mp hsegment] at hslash
      rcases List.mem_cons.mp hslash with hslash | hslash
      · cases hslash
      · exact (unruled hslash).2.1 rfl

/-- The name of a version's tag is legal unless it ends with `.lock` or is too long. -/
theorem normalize?_tagRef (v : Version) : RefName.normalize? (Utf8.encode v.tagRef) =
    if (ascii ".lock").isSuffixOf (118 :: v.octets) || 1012 < v.octets.length then none
    else some (Utf8.encode v.tagRef) := by
  have hname : [slash].intercalate [ascii "refs", ascii "tags", 118 :: v.octets] =
      Utf8.encode v.tagRef := by
    rw [← splitOn_tagRef, List.intercalate_splitOn]
  have hends : ¬((Utf8.encode v.tagRef).head? = some slash ∨
      (Utf8.encode v.tagRef).getLast? = some slash ∨
        (Utf8.encode v.tagRef).getLast? = some dot) := by
    rw [encode_tagRef, List.getLast?_append_of_ne_nil _ v.octets_ne_nil]
    rintro (h | h | h)
    · cases h
    · exact (v.getLast?_octets _ h).1 rfl
    · exact (v.getLast?_octets _ h).2 rfl
  have hall : [ascii "refs", ascii "tags", 118 :: v.octets].all RefName.isSegment =
      !(ascii ".lock").isSuffixOf (118 :: v.octets) := by
    rw [← isSegment_octets]
    simp only [List.all_cons, List.all_nil, Bool.and_true]
    rfl
  have hlength : (Utf8.encode v.tagRef).length = 11 + v.octets.length := by
    rw [encode_tagRef, List.length_append]
    rfl
  have hlimit : RefName.limit < 11 + v.octets.length ↔ 1012 < v.octets.length := by
    rw [RefName.limit]
    omega
  have hfilter : [ascii "refs", ascii "tags", 118 :: v.octets].filter
      (fun segment => !segment.isEmpty) = [ascii "refs", ascii "tags", 118 :: v.octets] := rfl
  have hcaps : RefName.isAllCaps (ascii "refs") = false := by decide
  simp only [RefName.normalize?, splitOn_tagRef, hfilter, hname, if_neg hends, hall, hlength,
    hlimit, hcaps, Bool.not_not]
  simp

theorem lock_suffix_iff (v : Version) :
    (ascii ".lock").isSuffixOf (118 :: v.octets) = true ↔ ".lock".toList <:+ v.render.toList := by
  have hlist : v.render.toList = v.chars := String.toList_ofList
  rw [List.isSuffixOf_iff_suffix, List.suffix_cons_iff, hlist]
  constructor
  · rintro (h | h)
    · cases h
    · rw [List.suffix_iff_eq_drop, octets, List.length_map, ← List.map_drop] at h
      have hlock : ".lock".toList.all (·.toNat < 0x80) = true := by decide
      have hdrop := eq_of_octets (fun c hc => by simpa using List.all_eq_true.mp hlock c hc)
        (fun c hc => (toNat_of_mem_chars (List.mem_of_mem_drop hc)).1) h
      rw [hdrop]
      exact List.drop_suffix _ _
  · intro h
    exact .inr (h.map fun c : Char => UInt8.ofNat c.toNat)

/-- A version has no legal tag exactly if its text ends with `.lock` or is too long. -/
theorem normalize?_tagRef_eq_none_iff (v : Version) :
    RefName.normalize? (Utf8.encode v.tagRef) = none ↔
      ".lock".toList <:+ v.render.toList ∨ 1012 < v.render.length := by
  have hlength : v.octets.length = v.render.length := by
    rw [octets, List.length_map, render, String.length_ofList]
  rw [normalize?_tagRef, ← lock_suffix_iff, ← hlength]
  split
  · next h => simpa using h
  · next h => simpa using h

end Version

/-! ## Headers -/

/-- The text of a version fits into a header. -/
theorem Version.isHeaderText_render (v : Version) : Registry.isHeaderText v.render = true := by
  rw [Registry.isHeaderText, render, String.toList_ofList, List.all_eq_true]
  intro c hc
  obtain ⟨hlow, hrange⟩ := toNat_of_mem_chars hc
  have hblank : ' ' ≤ c := by
    rw [Char.le_def, UInt32.le_iff_toNat_le]
    change 32 ≤ c.toNat
    omega
  have hdelete : c ≠ '\x7f' := by
    rintro rfl
    revert hrange
    decide
  simp [hblank, hdelete]

/-- An archive has a name that fits into a header if the module's coordinate does. -/
theorem Coordinate.isHeaderText_archiveFileName (c : Coordinate) (v : Version) :
    Registry.isHeaderText (c.archiveFileName v) =
      (Registry.isHeaderText c.space && Registry.isHeaderText c.name &&
        Registry.isHeaderText c.provider) := by
  have hversion := v.isHeaderText_render
  have hends : Registry.isHeaderText "_" = true ∧ Registry.isHeaderText ".tgz" = true := by decide
  simp only [Registry.isHeaderText, archiveFileName, String.toList_append, List.all_append]
    at hversion hends ⊢
  simp only [hversion, hends, Bool.and_true]

end TagRegistry
