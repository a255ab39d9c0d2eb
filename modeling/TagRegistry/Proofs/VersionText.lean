import TagRegistry.Proofs.Listing

/-! Reading the canonical text of a version.

Reading undoes writing, field by field. The parts are cut off from the right, and no part holds the
mark of one further right: digits and dots come before the first `-`, and there is no `+` in
identifiers. So a version is the only one with its text, and the tag that is named after it names
it. -/

namespace TagRegistry

open Text

/-! ## Numbers -/

namespace Text.Decimal

theorem isDigit_of_mem_digits {n : Nat} {c : Char} (h : c ∈ digits n) : c.isDigit = true :=
  Nat.isDigit_of_mem_toDigits (by decide) (by decide) h

theorem digits_ne_nil (n : Nat) : digits n ≠ [] := Nat.toDigits_ne_nil

theorem isRun_digits (n : Nat) : isRun (digits n) = true := by
  have hall : (digits n).all Char.isDigit = true :=
    List.all_eq_true.mpr fun _ hc => isDigit_of_mem_digits hc
  simp [isRun, hall, digits_ne_nil]

theorem value_digits (n : Nat) : value (digits n) = n := Nat.ofDigitChars_ten_toDigits

theorem word?_digits (n : UInt64) : word? (digits n.toNat) = some n := by
  have hbound : n.toNat < wordBound := n.toNat_lt
  simp [word?, readBelow?_eq, isRun_digits, value_digits, hbound]

end Text.Decimal

/-! ## The characters of a version -/

theorem Identifiers.ofChars?_chars (ids : Identifiers) : ofChars? ids.chars = some ids :=
  dif_pos ids.legal

/-- The identifiers of a list, between its dots. -/
theorem Identifiers.word {ids : Identifiers} {word : List Char} (h : word ∈ ids.toList) :
    word ≠ [] ∧ ∀ c ∈ word, isIdentifierChar c = true := by
  have hword := List.all_eq_true.mp ids.legal word h
  simpa using hword

theorem Identifiers.intercalate_toList (ids : Identifiers) :
    ['.'].intercalate ids.toList = ids.chars :=
  List.intercalate_splitOn '.'

theorem Identifiers.char {ids : Identifiers} {c : Char} (h : c ∈ ids.chars) :
    c = '.' ∨ isIdentifierChar c = true := by
  rw [← ids.intercalate_toList] at h
  exact (mem_of_mem_intercalate h).imp_right fun ⟨_, hword, hc⟩ => (ids.word hword).2 c hc

theorem toNat_of_isUpper {c : Char} (h : c.isUpper = true) : 65 ≤ c.toNat ∧ c.toNat ≤ 90 := by
  have hval : 'A'.val ≤ c.val ∧ c.val ≤ 'Z'.val := of_decide_eq_true h
  exact ⟨UInt32.le_iff_toNat_le.mp hval.1, UInt32.le_iff_toNat_le.mp hval.2⟩

theorem toNat_of_isLower {c : Char} (h : c.isLower = true) : 97 ≤ c.toNat ∧ c.toNat ≤ 122 := by
  obtain ⟨hlow, hhigh⟩ := Bool.and_eq_true_iff.mp h
  exact ⟨UInt32.le_iff_toNat_le.mp (of_decide_eq_true hlow),
    UInt32.le_iff_toNat_le.mp (of_decide_eq_true hhigh)⟩

/-- Where the characters of identifiers stand among all characters. -/
theorem toNat_of_isIdentifierChar {c : Char} (h : isIdentifierChar c = true) :
    c.toNat = 45 ∨ (48 ≤ c.toNat ∧ c.toNat ≤ 57) ∨ (65 ≤ c.toNat ∧ c.toNat ≤ 90) ∨
      (97 ≤ c.toNat ∧ c.toNat ≤ 122) := by
  rcases Bool.or_eq_true_iff.mp h with h | h
  · rcases Bool.or_eq_true_iff.mp h with h | h
    · rcases Bool.or_eq_true_iff.mp h with h | h
      · exact .inr (.inr (.inl (toNat_of_isUpper h)))
      · exact .inr (.inr (.inr (toNat_of_isLower h)))
    · exact .inr (.inl (Char.isDigit_iff_toNat.mp h))
  · rw [beq_iff_eq] at h
    rw [h]
    exact .inl rfl

namespace Version

theorem segments_ne_nil (v : Version) : v.segments ≠ [] :=
  List.ne_nil_of_length_pos (Nat.lt_of_lt_of_le (by decide) v.three_le_segments)

theorem mem_renderSegments {segments : List UInt64} {c : Char} (h : c ∈ renderSegments segments) :
    c = '.' ∨ c.isDigit = true := by
  refine (mem_of_mem_intercalate h).imp_right ?_
  intro ⟨word, hword, hc⟩
  obtain ⟨n, -, rfl⟩ := List.mem_map.mp hword
  exact Decimal.isDigit_of_mem_digits hc

theorem not_mem_renderSegments {segments : List UInt64} {c : Char} (hdot : c ≠ '.')
    (hdigit : c.isDigit = false) : c ∉ renderSegments segments := by
  intro h
  rcases mem_renderSegments h with rfl | h
  · exact hdot rfl
  · rw [hdigit] at h
    cases h

theorem mem_renderPart {mark c : Char} {ids : Option Identifiers} (h : c ∈ renderPart mark ids) :
    c = mark ∨ c = '.' ∨ isIdentifierChar c = true := by
  cases ids with
  | none => cases h
  | some ids => exact (List.mem_cons.mp h).imp_right Identifiers.char

theorem plus_not_mem_renderPart (ids : Option Identifiers) : '+' ∉ renderPart '-' ids := by
  intro h
  exact absurd (mem_renderPart h) (by decide)

/-- The characters that the text of a version is made of. -/
theorem mem_chars {v : Version} {c : Char} (h : c ∈ v.chars) :
    c = '.' ∨ c = '+' ∨ isIdentifierChar c = true := by
  rcases List.mem_append.mp h with h | h
  · rcases List.mem_append.mp h with h | h
    · refine (mem_renderSegments h).imp_right fun h => .inr ?_
      simp [isIdentifierChar, Char.isAlphanum, h]
    · rcases mem_renderPart h with rfl | h | h
      · exact .inr (.inr rfl)
      · exact .inl h
      · exact .inr (.inr h)
  · rcases mem_renderPart h with h | h | h
    · exact .inr (.inl h)
    · exact .inl h
    · exact .inr (.inr h)

theorem exists_renderSegments_cons (n : UInt64) (segments : List UInt64) :
    ∃ tail, renderSegments (n :: segments) = Decimal.digits n.toNat ++ tail := by
  cases segments with
  | nil => exact ⟨[], by simp [renderSegments]⟩
  | cons next segments =>
    refine ⟨'.' :: renderSegments (next :: segments), ?_⟩
    simp [renderSegments, List.intercalate_cons_cons]

/-- A version's text starts with a digit. -/
theorem exists_digit_cons_chars (v : Version) :
    ∃ c cs, v.chars = c :: cs ∧ c.isDigit = true := by
  obtain ⟨n, segments, hsegments⟩ := List.exists_cons_of_ne_nil v.segments_ne_nil
  obtain ⟨tail, htail⟩ := exists_renderSegments_cons n segments
  obtain ⟨c, cs, hdigits⟩ := List.exists_cons_of_ne_nil (Decimal.digits_ne_nil n.toNat)
  have hdigit : c.isDigit = true :=
    Decimal.isDigit_of_mem_digits (n := n.toNat) (hdigits ▸ List.mem_cons_self)
  refine ⟨c, cs ++ tail ++ renderPart '-' v.prerelease ++ renderPart '+' v.metadata, ?_, hdigit⟩
  simp [chars, hsegments, htail, hdigits]

/-! ## Reading it back -/

theorem splitPart_renderPart {mark : Char} {refuse : String → VersionError} {front : List Char}
    (h : mark ∉ front) (ids : Option Identifiers) :
    splitPart mark refuse (front ++ renderPart mark ids) = .ok (front, ids) := by
  cases ids with
  | none =>
    have hcut : cutFirst mark front = none := (cutFirst_eq_none_iff mark front).mpr h
    simp [splitPart, renderPart, hcut]
  | some ids =>
    have hcut : cutFirst mark (front ++ mark :: ids.chars) = some (front, ids.chars) :=
      (cutFirst_eq_some_iff mark _ front ids.chars).mpr ⟨h, rfl⟩
    simp [splitPart, renderPart, hcut, ids.ofChars?_chars]

theorem readSegments_digits (input : String) (segments : List UInt64) :
    readSegments input (segments.map fun n => Decimal.digits n.toNat) = .ok segments := by
  induction segments with
  | nil => rfl
  | cons n segments ih =>
    simp only [List.map_cons, readSegments, Decimal.word?_digits, ih]
    rfl

theorem splitOn_renderSegments {segments : List UInt64} (h : segments ≠ []) :
    (renderSegments segments).splitOn '.' = segments.map fun n => Decimal.digits n.toNat := by
  refine List.splitOn_intercalate '.' ?_ (by simpa using h)
  intro word hword hdot
  obtain ⟨n, -, rfl⟩ := List.mem_map.mp hword
  exact absurd (Decimal.isDigit_of_mem_digits hdot) (by decide)

theorem padSegments_of_three_le {segments : List UInt64} (h : 3 ≤ segments.length) :
    padSegments segments = segments := by
  simp [padSegments, Nat.sub_eq_zero_of_le h]

theorem dropMark_chars (v : Version) : dropMark v.chars = v.chars := by
  obtain ⟨c, cs, hchars, hdigit⟩ := v.exists_digit_cons_chars
  rw [hchars]
  unfold dropMark
  split
  · next heq =>
    obtain ⟨rfl, -⟩ := List.cons.inj heq
    cases hdigit
  · rfl

/-- The canonical text of a version is read as this version. -/
theorem parse_render (v : Version) : parse v.render = .ok v := by
  have hne : v.chars.isEmpty = false := by
    obtain ⟨c, cs, hchars, -⟩ := v.exists_digit_cons_chars
    rw [hchars]
    rfl
  have hplus : '+' ∉ renderSegments v.segments ++ renderPart '-' v.prerelease := by
    rw [List.mem_append, not_or]
    exact ⟨not_mem_renderSegments (by decide) (by decide), plus_not_mem_renderPart _⟩
  have hminus : '-' ∉ renderSegments v.segments := not_mem_renderSegments (by decide) (by decide)
  have hlist : v.render.toList = v.chars := String.toList_ofList
  simp only [parse, hlist, dropMark_chars, hne]
  rw [chars, splitPart_renderPart hplus]
  simp only [bind, Except.bind, splitPart_renderPart hminus,
    splitOn_renderSegments v.segments_ne_nil, readSegments_digits,
    padSegments_of_three_le v.three_le_segments]
  rfl

theorem render_injective {v w : Version} (h : v.render = w.render) : v = w :=
  Except.ok.inj (v.parse_render.symm.trans ((congrArg parse h).trans w.parse_render))

theorem tagRef_eq (v : Version) : v.tagRef = "refs/tags/v" ++ v.render := by
  have hmark : (String.ofList versionTagMark) = "refs/tags/v" := String.ofList_toList
  rw [tagRef, String.ofList_append, hmark, render]

/-- The tag that is named after a version names it. -/
theorem namesVersion_tagRef (v : Version) : NamesVersion v.tagRef v :=
  ⟨v.render, v.tagRef_eq, v.parse_render⟩

end Version

theorem NamesVersion.unique {name : String} {v w : Version} (hv : NamesVersion name v)
    (hw : NamesVersion name w) : v = w := by
  rw [← versionOfRef?_eq_some_iff] at hv hw
  exact Option.some.inj (hv.symm.trans hw)

end TagRegistry
