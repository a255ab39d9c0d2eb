import Mathlib.Data.List.Induction
import TagRegistry.Proofs.VersionGrammar

/-! The canonical text of a version, among all the ways to write it.

A version can be written with or without the mark, with fewer segments than it has, and with
leading zeros in its numbers. The canonical text makes none of these choices, which leaves one
derivation for each version. -/

namespace TagRegistry

open Text

/-! ## Numbers without leading zeros -/

namespace Text.Decimal

theorem digits_of_lt {d : Nat} (h : d < 10) : digits d = [d.digitChar] :=
  Nat.toDigits_of_lt_base h

theorem head?_digits_ne_zero {n : Nat} (h : n ≠ 0) : (digits n).head? ≠ some '0' := by
  induction n using Nat.strongRecOn with
  | _ n ih =>
    by_cases hn : n < 10
    · rw [digits_of_lt hn]
      simpa using h
    · have hfront : (digits (n / 10)).head? ≠ some '0' := ih (n / 10) (by omega) (by omega)
      obtain ⟨c, cs, hcs⟩ := List.exists_cons_of_ne_nil (digits_ne_nil (n / 10))
      rw [digits, Nat.toDigits_of_base_le (by decide) (by omega), ← digits, hcs]
      simpa [hcs] using hfront

/-- A digit is the one that its value is written with. -/
theorem digitChar_value {c : Char} (h : c.isDigit = true) :
    c.toNat - '0'.toNat < 10 ∧ (c.toNat - '0'.toNat).digitChar = c := by
  have hc : 48 ≤ c.toNat ∧ c.toNat ≤ 57 := Char.isDigit_iff_toNat.mp h
  have hzero : '0'.toNat = 48 := rfl
  have hlt : c.toNat - '0'.toNat < 10 := by omega
  refine ⟨hlt, Char.toNat_inj.mp ?_⟩
  rw [Nat.toNat_digitChar_of_lt_ten hlt]
  omega

theorem value_append_singleton (word : List Char) (c : Char) :
    value (word ++ [c]) = 10 * value word + (c.toNat - '0'.toNat) := by
  simp [value, Nat.ofDigitChars_append, Nat.ofDigitChars_cons]

theorem value_pos {word : List Char} (hne : word ≠ []) (hdigit : ∀ c ∈ word, c.isDigit = true)
    (hhead : word.head? ≠ some '0') : 0 < value word := by
  obtain ⟨c, cs, rfl⟩ := List.exists_cons_of_ne_nil hne
  obtain ⟨-, hc⟩ := digitChar_value (hdigit c List.mem_cons_self)
  have hpos : c.toNat - '0'.toNat ≠ 0 := fun hzero => by
    rw [hzero] at hc
    exact hhead (by simp [← hc])
  rw [value, Nat.ofDigitChars_cons]
  exact Nat.lt_of_lt_of_le (by omega) (le_ofDigitChars _ cs)

/-- A run of digits without a leading zero is the way to write its value. -/
theorem digits_value {word : List Char} (hne : word ≠ [])
    (hdigit : ∀ c ∈ word, c.isDigit = true) (hhead : word.head? ≠ some '0') :
    digits (value word) = word := by
  induction word using List.reverseRecOn with
  | nil => exact absurd rfl hne
  | append_singleton front c ih =>
    obtain ⟨hlt, hc⟩ := digitChar_value (hdigit c (by simp))
    have hlast : digits (c.toNat - '0'.toNat) = [c] := by rw [digits_of_lt hlt, hc]
    rw [value_append_singleton]
    by_cases hfront : front = []
    · rw [hfront]
      exact (congrArg digits (by simp [value])).trans hlast
    · have hfrontDigit : ∀ d ∈ front, d.isDigit = true := fun d hd => hdigit d (by simp [hd])
      have hfrontHead : front.head? ≠ some '0' := by
        obtain ⟨d, ds, rfl⟩ := List.exists_cons_of_ne_nil hfront
        exact hhead
      have hpos := value_pos hfront hfrontDigit hfrontHead
      rw [digits, ← Nat.toDigits_append_toDigits (by decide) hpos hlt, ← digits, ← digits,
        ih hfront hfrontDigit hfrontHead, hlast]

end Text.Decimal

/-! ## Canonical derivations -/

/-- A derivation that leaves no choice: no mark, no zeros to fill up, and no leading zeros. -/
structure Spelling.Canonical (p : Spelling) : Prop where
  unmarked : p.marked = false
  three_le : 3 ≤ p.numerals.length
  shortest : ∀ word ∈ p.numerals, word = ['0'] ∨ word.head? ≠ some '0'

namespace Numeral

theorem digits (n : UInt64) : Numeral (Decimal.digits n.toNat) :=
  Numeral.iff.mpr ⟨Decimal.isRun_digits _, by
    rw [Decimal.value_digits]
    exact n.toNat_lt⟩

theorem digits_value {word : List Char} (h : Numeral word)
    (hshort : word = ['0'] ∨ word.head? ≠ some '0') :
    Decimal.digits (Decimal.value word) = word := by
  rcases hshort with rfl | hhead
  · rfl
  · exact Decimal.digits_value h.ne_nil (fun c hc => isDigit_iff_between.mpr (h.digit c hc)) hhead

end Numeral

namespace Version

/-- The derivation of the canonical text. -/
def spelling (v : Version) : Spelling where
  marked := false
  numerals := v.segments.map fun n => Decimal.digits n.toNat
  prerelease := v.prerelease.map Identifiers.toList
  metadata := v.metadata.map Identifiers.toList

theorem map_dotted_toList (part : Option Identifiers) :
    (part.map Identifiers.toList).map dotted = part.map Identifiers.chars := by
  rw [Option.map_map]
  exact congrFun (congrArg _ (funext Identifiers.intercalate_toList)) part

theorem renderPart_eq_behind (mark : Char) (part : Option Identifiers) :
    renderPart mark part = behind mark (part.map Identifiers.chars) := by
  cases part <;> rfl

theorem chars_spelling (v : Version) : v.spelling.chars = v.chars := by
  simp only [Spelling.chars, Spelling.body, spelling, map_dotted_toList, Version.chars,
    renderPart_eq_behind]
  rfl

theorem spells_spelling (v : Version) : v.spelling.Spells v.render := by
  have hpart : ∀ {part : Option Identifiers}, ∀ words ∈ part.map Identifiers.toList,
      WordList Identifier words := by
    intro part words hwords
    obtain ⟨ids, -, rfl⟩ := Option.map_eq_some_iff.mp hwords
    exact isIdentifierList_iff.mp ids.legal
  refine ⟨⟨⟨by simpa [spelling] using v.segments_ne_nil, ?_⟩, hpart, hpart⟩, ?_⟩
  · intro word hword
    obtain ⟨n, -, rfl⟩ := List.mem_map.mp hword
    exact Numeral.digits n
  · rw [chars_spelling, render, String.toList_ofList]

theorem canonical_spelling (v : Version) : v.spelling.Canonical := by
  refine ⟨rfl, by simpa [spelling] using v.three_le_segments, ?_⟩
  intro word hword
  obtain ⟨n, -, rfl⟩ := List.mem_map.mp hword
  by_cases hn : n.toNat = 0
  · rw [hn]
    exact .inl rfl
  · exact .inr (Decimal.head?_digits_ne_zero hn)

theorem denotes_spelling (v : Version) : v.spelling.Denotes v := by
  refine ⟨?_, (map_dotted_toList _).symm, (map_dotted_toList _).symm⟩
  have hpad : 3 - v.segments.length = 0 := Nat.sub_eq_zero_of_le v.three_le_segments
  simp [spelling, Function.comp_def, Decimal.value_digits, hpad]

/-- A canonical derivation of a version derives the text that is written for it. -/
theorem chars_of_canonical {v : Version} {p : Spelling} (hlegal : p.Legal) (hp : p.Canonical)
    (hv : p.Denotes v) : p.chars = v.chars := by
  have hvalues : v.segments.map UInt64.toNat = p.numerals.map Decimal.value := by
    simpa [Nat.sub_eq_zero_of_le hp.three_le] using hv.segments
  have hnumerals : v.segments.map (fun n => Decimal.digits n.toNat) = p.numerals := by
    calc v.segments.map (fun n => Decimal.digits n.toNat)
        = (v.segments.map UInt64.toNat).map Decimal.digits := by rw [List.map_map]; rfl
      _ = p.numerals.map fun word => Decimal.digits (Decimal.value word) := by
          rw [hvalues, List.map_map]; rfl
      _ = p.numerals := by
          refine (List.map_congr_left fun word hword => ?_).trans (List.map_id' p.numerals)
          exact (hlegal.numerals.2 word hword).digits_value (hp.shortest word hword)
  rw [Spelling.chars, hp.unmarked, if_neg Bool.false_ne_true, Spelling.body, ← hv.prerelease,
    ← hv.metadata, Version.chars, renderPart_eq_behind, renderPart_eq_behind, renderSegments,
    hnumerals, dotted]

/-- The canonical text of a version is read as this version, field by field, and so is the tag
that is named after it; so no two versions have one canonical text. Of all the ways to write a
version it is the one without a mark, with all segments and without leading zeros. -/
theorem canonical_text (v : Version) :
    parse v.render = .ok v ∧ versionOfRef? v.tagRef = some v ∧
    (∀ w : Version, w.render = v.render → w.segments = v.segments ∧
      w.prerelease.map Identifiers.text = v.prerelease.map Identifiers.text ∧
      w.metadata.map Identifiers.text = v.metadata.map Identifiers.text) ∧
    (∀ text : String, text = v.render ↔
      ∃ p : Spelling, p.Spells text ∧ p.Denotes v ∧ p.Canonical) := by
  refine ⟨parse_render v, versionOfRef?_eq_some_iff.mpr (namesVersion_tagRef v), ?_, ?_⟩
  · intro w hw
    rw [render_injective hw]
    exact ⟨rfl, rfl, rfl⟩
  · intro text
    constructor
    · rintro rfl
      exact ⟨v.spelling, v.spells_spelling, v.denotes_spelling, v.canonical_spelling⟩
    · rintro ⟨p, hp, hv, hcanonical⟩
      rw [render, ← chars_of_canonical hp.legal hcanonical hv, hp.chars_eq, String.ofList_toList]

end Version

end TagRegistry
