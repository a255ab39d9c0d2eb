import TagRegistry.Proofs.TextEncoding
import TagRegistry.Proofs.VersionText

/-! Precedence as it is defined for semantic versions.

`Precedes` says which of two versions comes first, place by place, and does not say how to find
out. It is up to a choice of the identifiers that count as numbers. For semantic versions these are
all runs of digits. The comparison takes only those below 2^64 for numbers and the others for texts,
so it agrees with the definition where no larger number meets another one or a text. -/

namespace TagRegistry

open Std Text

/-! ## Lists and texts in order -/

/-- Lists compare as their entries do. -/
theorem compare_eq_lt_iff {α : Type} [Ord α] [LT α] [LawfulEqOrd α]
    (h : ∀ {x y : α}, compare x y = .lt ↔ x < y) {xs ys : List α} :
    compare xs ys = .lt ↔ xs < ys := by
  induction xs generalizing ys with
  | nil =>
    cases ys with
    | nil => exact iff_of_false nofun (List.not_lt_nil [])
    | cons y ys => exact iff_of_true rfl (List.nil_lt_cons y ys)
  | cons x xs ih =>
    cases ys with
    | nil => exact iff_of_false nofun (List.not_lt_nil _)
    | cons y ys =>
      have hcons : compare (x :: xs) (y :: ys) = (compare x y).then (compare xs ys) :=
        List.compareLex_cons_cons
      rw [hcons, Ordering.then_eq_lt, List.cons_lt_cons_iff, ih, h,
        LawfulEqCmp.compare_eq_iff_eq]

/-- Texts and their octets are in the same order. -/
theorem Utf8.encodeChars_lt_iff {x y : List Char} : encodeChars x < encodeChars y ↔ x < y := by
  have hread (cs : List Char) : decode? (encodeChars cs) = some (String.ofList cs) := by
    have h := decode?_encode (String.ofList cs)
    rwa [encode, String.toList_ofList] at h
  have hle {x y : List Char} (h : compare (encodeChars x) (encodeChars y) ≠ .gt) : ¬y < x := by
    have htexts : String.ofList x ≤ String.ofList y := le_of_decode h (hread x) (hread y)
    change ¬(String.ofList y).toList < (String.ofList x).toList at htexts
    rwa [String.toList_ofList, String.toList_ofList] at htexts
  constructor
  · intro hlt
    have hcompare := (compare_eq_lt_iff compareOfLessAndEq_eq_lt).mpr hlt
    by_contra hnot
    have heq : x = y := List.le_antisymm (hle (by simp [hcompare])) hnot
    rw [heq] at hlt
    exact List.lt_irrefl _ hlt
  · intro hlt
    by_contra hnot
    refine hle (x := y) (y := x) ?_ hlt
    rw [ne_eq, OrientedCmp.gt_iff_lt, compare_eq_lt_iff compareOfLessAndEq_eq_lt]
    exact hnot

namespace Version

/-! ## Segments -/

/-- The number at a place. Behind the last segment there are zeros. -/
def numberAt (segments : List UInt64) (place : Nat) : Nat := (segments.getD place 0).toNat

/-- Up to some place the numbers are the same, and there the first list has the smaller one. -/
def SegmentsPrecede (xs ys : List UInt64) : Prop :=
  ∃ place, (∀ earlier < place, numberAt xs earlier = numberAt ys earlier) ∧
    numberAt xs place < numberAt ys place

def SameSegments (xs ys : List UInt64) : Prop := ∀ place, numberAt xs place = numberAt ys place

theorem numberAt_zero (xs : List UInt64) : numberAt xs 0 = (xs.headD 0).toNat := by
  cases xs <;> rfl

theorem numberAt_succ (xs : List UInt64) (place : Nat) :
    numberAt xs (place + 1) = numberAt xs.tail place := by
  cases xs <;> rfl

theorem segmentsPrecede_step (xs ys : List UInt64) :
    SegmentsPrecede xs ys ↔ numberAt xs 0 < numberAt ys 0 ∨
      numberAt xs 0 = numberAt ys 0 ∧ SegmentsPrecede xs.tail ys.tail := by
  constructor
  · rintro ⟨place, hsame, hlt⟩
    cases place with
    | zero => exact .inl hlt
    | succ place =>
      refine .inr ⟨hsame 0 (Nat.succ_pos place), place, fun earlier hearlier => ?_, ?_⟩
      · rw [← numberAt_succ, ← numberAt_succ]
        exact hsame _ (Nat.succ_lt_succ hearlier)
      · rwa [← numberAt_succ, ← numberAt_succ]
  · rintro (hlt | ⟨hhead, place, hsame, hlt⟩)
    · exact ⟨0, fun _ h => absurd h (Nat.not_lt_zero _), hlt⟩
    · refine ⟨place + 1, fun earlier hearlier => ?_, by rwa [numberAt_succ, numberAt_succ]⟩
      cases earlier with
      | zero => exact hhead
      | succ earlier =>
        rw [numberAt_succ, numberAt_succ]
        exact hsame earlier (Nat.lt_of_succ_lt_succ hearlier)

theorem sameSegments_step (xs ys : List UInt64) :
    SameSegments xs ys ↔ numberAt xs 0 = numberAt ys 0 ∧ SameSegments xs.tail ys.tail := by
  constructor
  · intro h
    refine ⟨h 0, fun place => ?_⟩
    rw [← numberAt_succ, ← numberAt_succ]
    exact h (place + 1)
  · rintro ⟨hhead, htail⟩ (_ | place)
    · exact hhead
    · rw [numberAt_succ, numberAt_succ]
      exact htail place

/-- Segments compare as numbers at the first place where they differ. -/
theorem compareSegments_iff (xs ys : List UInt64) :
    (compareSegments xs ys = .lt ↔ SegmentsPrecede xs ys) ∧
      (compareSegments xs ys = .eq ↔ SameSegments xs ys) := by
  obtain ⟨n, hx, hy⟩ : ∃ n, xs.length ≤ n ∧ ys.length ≤ n :=
    ⟨max xs.length ys.length, Nat.le_max_left .., Nat.le_max_right ..⟩
  induction n generalizing xs ys with
  | zero =>
    obtain rfl := List.length_eq_zero_iff.mp (Nat.le_zero.mp hx)
    obtain rfl := List.length_eq_zero_iff.mp (Nat.le_zero.mp hy)
    exact ⟨iff_of_false nofun fun ⟨_, _, hlt⟩ => Nat.lt_irrefl _ hlt, iff_of_true rfl fun _ => rfl⟩
  | succ n ih =>
    obtain ⟨hlt, heq⟩ := ih xs.tail ys.tail (by simp; omega) (by simp; omega)
    rw [compareSegments_step, segmentsPrecede_step, sameSegments_step, Ordering.then_eq_lt,
      Ordering.then_eq_eq, hlt, heq, compare_eq_lt, LawfulEqCmp.compare_eq_iff_eq, numberAt_zero,
      numberAt_zero, UInt64.lt_iff_toNat_lt, UInt64.toNat_inj]
    exact ⟨.rfl, .rfl⟩

/-! ## Identifiers -/

/-- A run of digits. -/
def IsNumber (word : List Char) : Prop := Decimal.isRun word = true

/-- A run of digits with a value that fits 64 bits. -/
def IsWord (word : List Char) : Prop := IsNumber word ∧ Decimal.value word < 2 ^ 64

instance : DecidablePred IsNumber := fun word =>
  inferInstanceAs (Decidable (Decimal.isRun word = true))

instance : DecidablePred IsWord := fun word =>
  inferInstanceAs (Decidable (IsNumber word ∧ Decimal.value word < 2 ^ 64))

/-- One identifier comes before another, if those that satisfy `Numeric` count as numbers: numbers by
their values and before texts, texts by their octets. -/
inductive IdentifierPrecedes (Numeric : List Char → Prop) (x y : List Char) : Prop where
  | value (left : Numeric x) (right : Numeric y) (lt : Decimal.value x < Decimal.value y)
  | kind (left : Numeric x) (right : ¬Numeric y)
  | text (left : ¬Numeric x) (right : ¬Numeric y) (lt : Utf8.encodeChars x < Utf8.encodeChars y)

def SameIdentifier (Numeric : List Char → Prop) (x y : List Char) : Prop :=
  x = y ∨ Numeric x ∧ Numeric y ∧ Decimal.value x = Decimal.value y

theorem SameIdentifier.symm {Numeric : List Char → Prop} {x y : List Char}
    (h : SameIdentifier Numeric x y) : SameIdentifier Numeric y x :=
  h.imp Eq.symm fun ⟨hx, hy, hvalue⟩ => ⟨hy, hx, hvalue.symm⟩

/-- One list of identifiers comes before another: by the first identifiers that are not the same, or
because it ends there. -/
inductive IdentifiersPrecede (Numeric : List Char → Prop) :
    List (List Char) → List (List Char) → Prop where
  | ended {y : List Char} {ys : List (List Char)} : IdentifiersPrecede Numeric [] (y :: ys)
  | first {x y : List Char} {xs ys : List (List Char)} (here : IdentifierPrecedes Numeric x y) :
      IdentifiersPrecede Numeric (x :: xs) (y :: ys)
  | next {x y : List Char} {xs ys : List (List Char)} (here : SameIdentifier Numeric x y)
      (later : IdentifiersPrecede Numeric xs ys) : IdentifiersPrecede Numeric (x :: xs) (y :: ys)

section Kinds

variable {Numeric : List Char → Prop} {x y : List Char}

theorem identifierPrecedes_of_numbers (hx : Numeric x) (hy : Numeric y) :
    IdentifierPrecedes Numeric x y ↔ Decimal.value x < Decimal.value y := by
  constructor
  · rintro (⟨-, -, hlt⟩ | ⟨-, hright⟩ | ⟨hleft, -, -⟩)
    · exact hlt
    · exact absurd hy hright
    · exact absurd hx hleft
  · exact .value hx hy

theorem identifierPrecedes_of_texts (hx : ¬Numeric x) (hy : ¬Numeric y) :
    IdentifierPrecedes Numeric x y ↔ x < y := by
  rw [← Utf8.encodeChars_lt_iff]
  constructor
  · rintro (⟨hleft, -, -⟩ | ⟨hleft, -⟩ | ⟨-, -, hlt⟩)
    · exact absurd hleft hx
    · exact absurd hleft hx
    · exact hlt
  · exact .text hx hy

/-- A text never comes before a number. -/
theorem not_identifierPrecedes (hx : ¬Numeric x) (hy : Numeric y) :
    ¬IdentifierPrecedes Numeric x y := by
  rintro (⟨hleft, -, -⟩ | ⟨hleft, -⟩ | ⟨-, hright, -⟩)
  · exact hx hleft
  · exact hx hleft
  · exact hright hy

theorem sameIdentifier_of_numbers (hx : Numeric x) (hy : Numeric y) :
    SameIdentifier Numeric x y ↔ Decimal.value x = Decimal.value y := by
  constructor
  · rintro (rfl | ⟨-, -, hvalue⟩)
    · rfl
    · exact hvalue
  · exact fun hvalue => .inr ⟨hx, hy, hvalue⟩

theorem sameIdentifier_of_text (h : ¬(Numeric x ∧ Numeric y)) :
    SameIdentifier Numeric x y ↔ x = y :=
  or_iff_left fun ⟨hx, hy, _⟩ => h ⟨hx, hy⟩

end Kinds

theorem word?_cases (word : List Char) :
    (∃ n, Decimal.word? word = some n ∧ IsWord word ∧ n.toNat = Decimal.value word) ∨
      Decimal.word? word = none ∧ ¬IsWord word := by
  rw [Decimal.word?, Decimal.readBelow?_eq]
  by_cases h : IsWord word
  · refine .inl ⟨UInt64.ofNat (Decimal.value word), ?_, h, ?_⟩
    · have hbound : Decimal.value word < Decimal.wordBound := h.2
      rw [show Decimal.isRun word = true from h.1, decide_eq_true hbound]
      rfl
    · rw [UInt64.toNat_ofNat']
      exact Nat.mod_eq_of_lt h.2
  · refine .inr ⟨?_, h⟩
    have hcond : ¬(Decimal.isRun word && decide (Decimal.value word < Decimal.wordBound)) = true := by
      rw [Bool.and_eq_true_iff, decide_eq_true_iff]
      exact h
    rw [if_neg hcond]
    rfl

theorem compareIdentifier_iff (x y : List Char) :
    (compareIdentifier x y = .lt ↔ IdentifierPrecedes IsWord x y) ∧
      (compareIdentifier x y = .eq ↔ SameIdentifier IsWord x y) := by
  unfold compareIdentifier
  obtain ⟨m, hm, hx, hvalue⟩ | ⟨hm, hx⟩ := word?_cases x <;>
    obtain ⟨n, hn, hy, hvalue'⟩ | ⟨hn, hy⟩ := word?_cases y <;> simp only [hm, hn]
  · rw [identifierPrecedes_of_numbers hx hy, sameIdentifier_of_numbers hx hy, compare_eq_lt,
      LawfulEqCmp.compare_eq_iff_eq, UInt64.lt_iff_toNat_lt, ← UInt64.toNat_inj, hvalue, hvalue']
    exact ⟨.rfl, .rfl⟩
  · refine ⟨iff_of_true trivial (.kind hx hy), iff_of_false nofun ?_⟩
    rw [sameIdentifier_of_text fun h => hy h.2]
    rintro rfl
    exact hy hx
  · refine ⟨iff_of_false nofun (not_identifierPrecedes hx hy), iff_of_false nofun ?_⟩
    rw [sameIdentifier_of_text fun h => hx h.1]
    rintro rfl
    exact hx hy
  · rw [identifierPrecedes_of_texts hx hy, sameIdentifier_of_text fun h => hx h.1,
      compare_eq_lt_iff compareOfLessAndEq_eq_lt, LawfulEqCmp.compare_eq_iff_eq]
    exact ⟨.rfl, .rfl⟩

/-- Prereleases compare at the first identifiers that are not the same. -/
theorem compareLex_eq_lt_iff (xs ys : List (List Char)) :
    List.compareLex compareIdentifier xs ys = .lt ↔ IdentifiersPrecede IsWord xs ys := by
  induction xs generalizing ys with
  | nil =>
    cases ys with
    | nil => exact iff_of_false nofun nofun
    | cons y ys => exact iff_of_true rfl .ended
  | cons x xs ih =>
    cases ys with
    | nil => exact iff_of_false nofun nofun
    | cons y ys =>
      obtain ⟨hlt, heq⟩ := compareIdentifier_iff x y
      rw [List.compareLex_cons_cons, Ordering.then_eq_lt, hlt, heq, ih]
      constructor
      · rintro (here | ⟨here, later⟩)
        · exact .first here
        · exact .next here later
      · rintro (_ | here | ⟨here, later⟩)
        · exact .inl here
        · exact .inr ⟨here, later⟩

/-! ## Versions -/

/-- One version comes before another: by their segments, as a prerelease of it, or by their
prereleases. -/
inductive Precedes (Numeric : List Char → Prop) (a b : Version) : Prop where
  | segments (lt : SegmentsPrecede a.segments b.segments)
  | release {x : Identifiers} (same : SameSegments a.segments b.segments)
      (left : a.prerelease = some x) (right : b.prerelease = none)
  | prerelease {x y : Identifiers} (same : SameSegments a.segments b.segments)
      (left : a.prerelease = some x) (right : b.prerelease = some y)
      (lt : IdentifiersPrecede Numeric x.toList y.toList)

theorem compare_eq_lt_iff_precedes (a b : Version) :
    Version.compare a b = .lt ↔ Precedes IsWord a b := by
  obtain ⟨hlt, heq⟩ := compareSegments_iff a.segments b.segments
  rw [Version.compare, Ordering.then_eq_lt, hlt, heq]
  constructor
  · rintro (hlt | ⟨hsame, hlt⟩)
    · exact .segments hlt
    · cases hx : a.prerelease with
      | none => cases hy : b.prerelease <;> rw [hx, hy] at hlt <;> cases hlt
      | some x =>
        cases hy : b.prerelease with
        | none => exact .release hsame hx hy
        | some y =>
          rw [hx, hy, comparePrerelease, compareLex_eq_lt_iff] at hlt
          exact .prerelease hsame hx hy hlt
  · rintro (hlt | ⟨hsame, hx, hy⟩ | ⟨hsame, hx, hy, hlt⟩)
    · exact .inl hlt
    · exact .inr ⟨hsame, by rw [hx, hy]; rfl⟩
    · exact .inr ⟨hsame, by rw [hx, hy, comparePrerelease, compareLex_eq_lt_iff]; exact hlt⟩

/-! ## Numbers beyond 64 bits -/

/-- Two identifiers are the same, or if one is a number of 2^64 or more, the other one is a smaller
number. -/
def Clear (x y : List Char) : Prop :=
  x = y ∨ (IsNumber x → ¬IsWord x → IsWord y) ∧ (IsNumber y → ¬IsWord y → IsWord x)

theorem Clear.symm {x y : List Char} (h : Clear x y) : Clear y x :=
  h.imp Eq.symm And.symm

/-- Two choices of numbers say the same of two identifiers. -/
structure Agree (Numeric Numeric' : List Char → Prop) (x y : List Char) : Prop where
  precedes : IdentifierPrecedes Numeric x y ↔ IdentifierPrecedes Numeric' x y
  same : SameIdentifier Numeric x y ↔ SameIdentifier Numeric' x y

section Choices

variable {Numeric Numeric' : List Char → Prop} {x y : List Char}

theorem agree_self : Agree Numeric Numeric' x x where
  precedes := by
    have hirrefl {Numeric : List Char → Prop} : ¬IdentifierPrecedes Numeric x x := by
      rintro (⟨-, -, hlt⟩ | ⟨hleft, hright⟩ | ⟨-, -, hlt⟩)
      · exact Nat.lt_irrefl _ hlt
      · exact hright hleft
      · exact List.lt_irrefl _ hlt
    exact iff_of_false hirrefl hirrefl
  same := iff_of_true (.inl rfl) (.inl rfl)

theorem IdentifierPrecedes.change (h : IdentifierPrecedes Numeric x y)
    (hx : Numeric x ↔ Numeric' x) (hy : Numeric y ↔ Numeric' y) :
    IdentifierPrecedes Numeric' x y := by
  cases h with
  | value left right lt => exact .value (hx.mp left) (hy.mp right) lt
  | kind left right => exact .kind (hx.mp left) (mt hy.mpr right)
  | text left right lt => exact .text (mt hx.mpr left) (mt hy.mpr right) lt

theorem agree_of_iff (hx : Numeric x ↔ Numeric' x) (hy : Numeric y ↔ Numeric' y) :
    Agree Numeric Numeric' x y where
  precedes := ⟨fun h => h.change hx hy, fun h => h.change hx.symm hy.symm⟩
  same := by rw [SameIdentifier, SameIdentifier, hx, hy]

/-- A number beyond 64 bits and a smaller one are in the same order as numbers and as text and
number. -/
theorem agree_of_huge (hx : IsNumber x) (hhuge : ¬IsWord x) (hy : IsWord y) :
    Agree IsWord IsNumber x y ∧ Agree IsWord IsNumber y x := by
  have hlt : Decimal.value y < Decimal.value x :=
    Nat.lt_of_lt_of_le hy.2 (Nat.le_of_not_lt fun h => hhuge ⟨hx, h⟩)
  have hne : x ≠ y := by
    rintro rfl
    exact hhuge hy
  refine ⟨⟨iff_of_false (not_identifierPrecedes hhuge hy) ?_, iff_of_false ?_ ?_⟩,
    ⟨iff_of_true (.kind hy hhuge) (.value hy.1 hx hlt), iff_of_false ?_ ?_⟩⟩
  · rw [identifierPrecedes_of_numbers hx hy.1]
    exact Nat.lt_asymm hlt
  · rwa [sameIdentifier_of_text fun h => hhuge h.1]
  · rw [sameIdentifier_of_numbers hx hy.1]
    exact Nat.ne_of_gt hlt
  · rw [sameIdentifier_of_text fun h => hhuge h.2]
    exact hne.symm
  · rw [sameIdentifier_of_numbers hy.1 hx]
    exact Nat.ne_of_lt hlt

theorem Clear.agree (h : Clear x y) : Agree IsWord IsNumber x y := by
  obtain rfl | ⟨hleft, hright⟩ := h
  · exact agree_self
  by_cases hx : IsNumber x → IsWord x
  · by_cases hy : IsNumber y → IsWord y
    · exact agree_of_iff ⟨And.left, hx⟩ ⟨And.left, hy⟩
    · obtain ⟨hy, hhuge⟩ := Classical.not_imp.mp hy
      exact (agree_of_huge hy hhuge (hright hy hhuge)).2
  · obtain ⟨hx, hhuge⟩ := Classical.not_imp.mp hx
    exact (agree_of_huge hx hhuge (hleft hx hhuge)).1

end Choices

/-- Identifiers are clear at all places up to the first where they are not the same. -/
inductive IdentifiersClear : List (List Char) → List (List Char) → Prop where
  | left (ys : List (List Char)) : IdentifiersClear [] ys
  | right (xs : List (List Char)) : IdentifiersClear xs []
  | cons {x y : List Char} {xs ys : List (List Char)} (here : Clear x y)
      (later : SameIdentifier IsNumber x y → IdentifiersClear xs ys) :
      IdentifiersClear (x :: xs) (y :: ys)

theorem IdentifiersClear.symm {xs ys : List (List Char)} (h : IdentifiersClear xs ys) :
    IdentifiersClear ys xs := by
  induction h with
  | left ys => exact .right ys
  | right xs => exact .left xs
  | cons here _ ih => exact .cons here.symm fun hsame => ih hsame.symm

theorem IdentifiersClear.precede_iff {xs ys : List (List Char)} (h : IdentifiersClear xs ys) :
    IdentifiersPrecede IsWord xs ys ↔ IdentifiersPrecede IsNumber xs ys := by
  induction h with
  | left ys =>
    constructor
    · rintro ⟨⟩
      exact .ended
    · rintro ⟨⟩
      exact .ended
  | right xs => exact iff_of_false nofun nofun
  | cons here _ ih =>
    have hagree := here.agree
    constructor
    · rintro (_ | lt | ⟨same, lt⟩)
      · exact .first (hagree.precedes.mp lt)
      · have hsame := hagree.same.mp same
        exact .next hsame ((ih hsame).mp lt)
    · rintro (_ | lt | ⟨same, lt⟩)
      · exact .first (hagree.precedes.mpr lt)
      · exact .next (hagree.same.mpr same) ((ih same).mpr lt)

/-- If the prereleases of two versions decide, their identifiers are clear. -/
def AllClear (a b : Version) : Prop :=
  ∀ x y : Identifiers, SameSegments a.segments b.segments → a.prerelease = some x →
    b.prerelease = some y → IdentifiersClear x.toList y.toList

theorem AllClear.symm {a b : Version} (h : AllClear a b) : AllClear b a :=
  fun y x hsame hy hx => (h x y (fun place => (hsame place).symm) hx hy).symm

theorem Precedes.change {Numeric Numeric' : List Char → Prop} {a b : Version}
    (h : Precedes Numeric a b)
    (hlists : ∀ x y : Identifiers, SameSegments a.segments b.segments → a.prerelease = some x →
      b.prerelease = some y → IdentifiersPrecede Numeric x.toList y.toList →
      IdentifiersPrecede Numeric' x.toList y.toList) : Precedes Numeric' a b := by
  cases h with
  | segments lt => exact .segments lt
  | release same left right => exact .release same left right
  | prerelease same left right lt =>
    exact .prerelease same left right (hlists _ _ same left right lt)

theorem AllClear.precedes_iff {a b : Version} (h : AllClear a b) :
    Precedes IsWord a b ↔ Precedes IsNumber a b where
  mp hprecedes := hprecedes.change fun x y same left right =>
    (h x y same left right).precede_iff.mp
  mpr hprecedes := hprecedes.change fun x y same left right =>
    (h x y same left right).precede_iff.mpr

/-! ## Comparisons -/

/-- A comparison says which of two things comes first, or that neither does. -/
structure Decides (result : Ordering) (left right : Prop) : Prop where
  lt : result = .lt ↔ left
  eq : result = .eq ↔ ¬left ∧ ¬right
  gt : result = .gt ↔ right

theorem decides_of_iff {result : Ordering} {left right : Prop} (hlt : result = .lt ↔ left)
    (hgt : result = .gt ↔ right) : Decides result left right where
  lt := hlt
  eq := by
    rw [← hlt, ← hgt]
    cases result <;> simp
  gt := hgt

theorem decides_compare (a b : Version) :
    Decides (Version.compare a b) (Precedes IsWord a b) (Precedes IsWord b a) :=
  decides_of_iff (compare_eq_lt_iff_precedes a b)
    (OrientedCmp.gt_iff_lt.trans (compare_eq_lt_iff_precedes b a))

/-- Versions compare by the precedence in which only numbers below 2^64 count as numbers. That is
the precedence of semantic versions where every larger number meets a smaller one or itself. -/
theorem semantic_precedence (a b : Version) :
    Decides (Version.compare a b) (Precedes IsWord a b) (Precedes IsWord b a) ∧
      (AllClear a b →
        Decides (Version.compare a b) (Precedes IsNumber a b) (Precedes IsNumber b a)) := by
  refine ⟨decides_compare a b, fun hclear => ?_⟩
  rw [← hclear.precedes_iff, ← hclear.symm.precedes_iff]
  exact decides_compare a b

/-- A build of a beta, which comes before the beta whose number is beyond 64 bits. -/
def ninthBeta : Version :=
  ⟨[1, 2, 0], some ⟨"beta.09".toList, rfl⟩, some ⟨"local".toList, rfl⟩, by decide⟩

def hugeBeta : Version :=
  ⟨[1, 2, 0, 0], some ⟨"beta.18446744073709551616".toList, rfl⟩, none, by decide⟩

theorem semantic_precedence_betas :
    AllClear ninthBeta hugeBeta ∧ Version.compare ninthBeta hugeBeta = .lt ∧
      Precedes IsNumber ninthBeta hugeBeta ∧ ¬Precedes IsNumber hugeBeta ninthBeta := by
  have hclear : AllClear ninthBeta hugeBeta := by
    rintro _ _ - ⟨⟩ ⟨⟩
    exact .cons (.inl rfl) fun _ => .cons (.inr (by decide)) fun _ => .left []
  have hcompare : Version.compare ninthBeta hugeBeta = .lt := rfl
  have hdecides := (semantic_precedence ninthBeta hugeBeta).2 hclear
  refine ⟨hclear, hcompare, hdecides.lt.mp hcompare, fun hlt => ?_⟩
  rw [hdecides.gt.mpr hlt] at hcompare
  cases hcompare

/-- Of two numbers beyond 64 bits the smaller one may come last, and so may such a number that is
compared with a text. -/
theorem huge_numbers_as_texts :
    ∃ a b c, Version.parse "1.0.0-18446744073709551616" = .ok a ∧
      Version.parse "1.0.0-100000000000000000000" = .ok b ∧ Version.parse "1.0.0--" = .ok c ∧
      Precedes IsNumber a b ∧ Version.compare a b = .gt ∧
      Precedes IsNumber a c ∧ Version.compare a c = .gt := by
  refine ⟨hugePrerelease, ⟨[1, 0, 0], some ⟨"100000000000000000000".toList, rfl⟩, none, by decide⟩,
    ⟨[1, 0, 0], some ⟨['-'], rfl⟩, none, by decide⟩, rfl, rfl, rfl, ?_, rfl, ?_, rfl⟩
  · exact .prerelease (fun _ => rfl) rfl rfl (.first (.value rfl rfl (by decide)))
  · exact .prerelease (fun _ => rfl) rfl rfl (.first (.kind rfl (by decide)))

end Version

end TagRegistry
