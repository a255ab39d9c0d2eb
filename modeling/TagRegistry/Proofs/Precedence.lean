import TagRegistry.Version.Order

/-! Precedence is a total preorder. Segments are compared after both lists have been filled up
with zeros to one length, identifiers and prereleases by cases, and a version by its segments
before its prerelease. What sorting and looking up versions needs of it is stated at the end in
terms of `atLeast` and `equivalent`. -/

namespace TagRegistry.Version

open Std Text

/-! ## Segments -/

/-- The first `n` segments of a list that goes on with zeros. -/
def filled : Nat → List UInt64 → List UInt64
  | 0, _ => []
  | n + 1, segments => segments.headD 0 :: filled n segments.tail

theorem compare_zero_left (n : UInt64) : compare 0 n = if n == 0 then .eq else .lt := by
  by_cases h : n = 0
  · subst h; rfl
  · have hlt : (0 : UInt64) < n := by
      rw [UInt64.lt_iff_toNat_lt]
      have : n.toNat ≠ 0 := fun h0 => h (UInt64.toNat_inj.mp h0)
      simp; omega
    simp [h, compareOfLessAndEq, compare, hlt]

theorem compare_zero_right (n : UInt64) : compare n 0 = if n == 0 then .eq else .gt := by
  rw [OrientedOrd.eq_swap (a := n), compare_zero_left]
  split <;> rfl

theorem ite_and_then (b c : Bool) (o : Ordering) :
    (if b && c then .eq else o) = (if b then .eq else o).then (if c then .eq else o) := by
  cases b with
  | false => cases o <;> cases c <;> rfl
  | true => rfl

/-- Both lists may be taken to have a first segment. -/
theorem compareSegments_step (xs ys : List UInt64) :
    compareSegments xs ys =
      (compare (xs.headD 0) (ys.headD 0)).then (compareSegments xs.tail ys.tail) := by
  cases xs with
  | nil =>
    cases ys with
    | nil => rfl
    | cons y ys =>
      rw [compareSegments, List.all_cons, ite_and_then, ← compare_zero_left]
      rfl
  | cons x xs =>
    cases ys with
    | nil =>
      rw [compareSegments, List.all_cons, ite_and_then, ← compare_zero_right]
      cases xs <;> rfl
    | cons y ys => rfl

/-- Filled up to a common length, segments compare one after the other. -/
theorem compareSegments_eq_filled :
    ∀ (n : Nat) (xs ys : List UInt64), xs.length ≤ n → ys.length ≤ n →
      compareSegments xs ys = List.compareLex compare (filled n xs) (filled n ys)
  | 0, xs, ys, hx, hy => by
    rw [List.length_eq_zero_iff.mp (Nat.le_zero.mp hx),
      List.length_eq_zero_iff.mp (Nat.le_zero.mp hy)]
    rfl
  | n + 1, xs, ys, hx, hy => by
    rw [compareSegments_step, filled, filled, List.compareLex_cons_cons,
      compareSegments_eq_filled n xs.tail ys.tail (by simp; omega) (by simp; omega)]

instance : OrientedCmp compareSegments where
  eq_swap {xs ys} := by
    let n := max xs.length ys.length
    rw [compareSegments_eq_filled n xs ys (Nat.le_max_left ..) (Nat.le_max_right ..),
      compareSegments_eq_filled n ys xs (Nat.le_max_right ..) (Nat.le_max_left ..)]
    exact OrientedCmp.eq_swap

instance : TransCmp compareSegments where
  isLE_trans {xs ys zs} hxy hyz := by
    -- A length for each pair would not do: all three have to be filled up alike.
    let n := max xs.length (max ys.length zs.length)
    rw [compareSegments_eq_filled n xs ys (by omega) (by omega)] at hxy
    rw [compareSegments_eq_filled n ys zs (by omega) (by omega)] at hyz
    rw [compareSegments_eq_filled n xs zs (by omega) (by omega)]
    exact TransCmp.isLE_trans hxy hyz

/-! ## Prereleases -/

instance : OrientedCmp compareIdentifier where
  eq_swap {x y} := by
    unfold compareIdentifier
    cases Decimal.word? x <;> cases Decimal.word? y
    · exact OrientedOrd.eq_swap
    · rfl
    · rfl
    · exact OrientedOrd.eq_swap

instance : TransCmp compareIdentifier where
  isLE_trans {x y z} hxy hyz := by
    unfold compareIdentifier at *
    cases hx : Decimal.word? x <;> cases hy : Decimal.word? y <;> cases hz : Decimal.word? z <;>
      simp only [hx, hy, hz] at hxy hyz ⊢
    all_goals first | exact TransCmp.isLE_trans hxy hyz | contradiction | rfl

instance : OrientedCmp comparePrerelease where
  eq_swap {x y} := by
    cases x with
    | none => cases y <;> rfl
    | some x =>
      cases y with
      | none => rfl
      | some y => exact @OrientedCmp.eq_swap _ (List.compareLex compareIdentifier) _ _ _

instance : TransCmp comparePrerelease where
  isLE_trans {x y z} hxy hyz := by
    cases x <;> cases y <;> cases z <;> simp only [comparePrerelease] at hxy hyz ⊢
    all_goals first | exact TransCmp.isLE_trans hxy hyz | contradiction | rfl

/-! ## Versions -/

/-- A total preorder of parts is one of wholes. -/
theorem transCmp_on {α β : Type} (cmp : β → β → Ordering) [TransCmp cmp] (f : α → β) :
    TransCmp fun a b => cmp (f a) (f b) where
  eq_swap := OrientedCmp.eq_swap
  isLE_trans := TransCmp.isLE_trans

instance : TransCmp Version.compare :=
  have := transCmp_on compareSegments Version.segments
  have := transCmp_on comparePrerelease Version.prerelease
  inferInstanceAs (TransCmp (compareLex (fun a b : Version => compareSegments a.segments b.segments)
    fun a b => comparePrerelease a.prerelease b.prerelease))

theorem equivalent_iff {a b : Version} : a.equivalent b = true ↔ Version.compare a b = .eq := by
  simp [equivalent]

theorem equivalent_refl (a : Version) : a.equivalent a = true :=
  equivalent_iff.mpr ReflCmp.compare_self

theorem equivalent_comm (a b : Version) : a.equivalent b = b.equivalent a := by
  rw [Bool.eq_iff_iff, equivalent_iff, equivalent_iff]
  exact OrientedCmp.eq_comm

/-- Equivalent versions compare alike with every other one. -/
theorem equivalent_congr {a b : Version} (h : a.equivalent b = true) (c : Version) :
    a.equivalent c = b.equivalent c := by
  rw [Bool.eq_iff_iff, equivalent_iff, equivalent_iff, TransCmp.congr_left (equivalent_iff.mp h)]

theorem atLeast_trans (a b c : Version) (hab : a.atLeast b = true) (hbc : b.atLeast c = true) :
    a.atLeast c = true :=
  TransCmp.isLE_trans hbc hab

theorem atLeast_total (a b : Version) : (a.atLeast b || b.atLeast a) = true := by
  unfold atLeast
  rw [@OrientedCmp.eq_swap _ Version.compare _ b]
  cases Version.compare a b <;> rfl

theorem atLeast_of_equivalent {a b : Version} (h : a.equivalent b = true) :
    a.atLeast b = true := by
  rw [equivalent_comm] at h
  simp [atLeast, equivalent_iff.mp h]

/-- What ranks at least as high and is not equivalent ranks higher. -/
theorem compare_gt_of_atLeast {a b : Version} (h : a.atLeast b = true)
    (hne : a.equivalent b = false) : Version.compare a b = .gt := by
  unfold atLeast at h
  unfold equivalent at hne
  rw [@OrientedCmp.eq_swap _ Version.compare] at h
  cases hc : Version.compare a b <;> simp_all

/-- Precedence is a total preorder, and versions that are equivalent compare alike with every other
one. -/
theorem total_preorder (a b c : Version) :
    Version.compare a a = .eq ∧ Version.compare a b = (Version.compare b a).swap ∧
      ((Version.compare a b).isLE = true → (Version.compare b c).isLE = true →
        (Version.compare a c).isLE = true) ∧
      (a.equivalent b = true → Version.compare c a = Version.compare c b ∧
        Version.compare a c = Version.compare b c) := by
  refine ⟨ReflCmp.compare_self, OrientedCmp.eq_swap, TransCmp.isLE_trans, fun h => ?_⟩
  rw [equivalent_iff] at h
  exact ⟨TransCmp.congr_right h, TransCmp.congr_left h⟩

/-- The first prerelease of a version. -/
def firstPrerelease : Version := { release 1 0 0 with prerelease := some ⟨['1'], rfl⟩ }

/-- A build of it, with one more segment and a leading zero. -/
def firstBuild : Version := ⟨[1, 0, 0, 0], some ⟨['0', '1'], rfl⟩, some ⟨['x'], rfl⟩, by decide⟩

/-- A prerelease of the same version, with a number that 64 bits do not hold. -/
def hugePrerelease : Version :=
  { release 1 0 0 with prerelease := some ⟨"18446744073709551616".toList, rfl⟩ }

theorem total_preorder_prereleases :
    firstPrerelease.equivalent firstBuild = true ∧
      (Version.compare firstBuild hugePrerelease).isLE = true ∧
      (Version.compare firstPrerelease hugePrerelease).isLE = true ∧
      Version.compare hugePrerelease firstPrerelease = Version.compare hugePrerelease firstBuild := by
  have hequivalent : firstPrerelease.equivalent firstBuild = true := rfl
  have hle : (Version.compare firstBuild hugePrerelease).isLE = true := rfl
  obtain ⟨-, -, htrans, hcongr⟩ := total_preorder firstPrerelease firstBuild hugePrerelease
  exact ⟨hequivalent, hle, htrans rfl hle, (hcongr hequivalent).1⟩

end TagRegistry.Version
