import Mathlib.Data.String.Basic
import TagRegistry.Disk.Repositories

/-! Names of references in order.

Names are sorted by their octets, and shown as text. UTF-8 keeps the order: where two valid texts
differ first, the greater octet belongs to the greater character. -/

namespace TagRegistry

namespace Utf8

/-! ## Characters by their first octets -/

/-- A number followed by so many groups of six bits, which are all the same. -/
def filled (group : Nat) : Nat → Nat → Nat
  | 0, n => n
  | missing + 1, n => filled group missing (n * 0x40 + group)

theorem filled_succ (group missing n : Nat) :
    filled group (missing + 1) n = filled group missing (n * 0x40 + group) := rfl

theorem filled_mono {group missing n m : Nat} (h : n ≤ m) :
    filled group missing n ≤ filled group missing m := by
  induction missing generalizing n m with
  | zero => exact h
  | succ missing ih => exact ih (by omega)

theorem filled_lt {missing n m : Nat} (h : n < m) : filled 0x3F missing n < filled 0 missing m := by
  induction missing generalizing n m with
  | zero => exact h
  | succ missing ih => exact ih (by omega)

namespace Partial

variable {p : Partial} {b : UInt8}

/-- The numbers of the first and the last character that can become of a partial one. -/
def least (p : Partial) : Nat := filled 0 (p.missing - 1) (p.bits * 0x40 + p.low.toNat % 0x40)

def greatest (p : Partial) : Nat :=
  filled 0x3F (p.missing - 1) (p.bits * 0x40 + p.high.toNat % 0x40)

/-- Something is missing, and whatever comes in the range makes a character. -/
structure Legal (p : Partial) : Prop where
  missing : 0 < p.missing
  low : 0x80 ≤ p.low.toNat
  high : p.high.toNat ≤ 0xBF
  valid : p.greatest < 0xD800 ∨ 0xDFFF < p.least ∧ p.greatest < 0x110000

/-- What a partial character is after one more octet. -/
def next (p : Partial) (b : UInt8) : Partial :=
  ⟨p.bits * 0x40 + b.toNat % 0x40, p.missing - 1, 0x80, 0xBF⟩

/-- An octet in the range of a partial character. -/
def Accepts (p : Partial) (b : UInt8) : Prop := p.low ≤ b ∧ b ≤ p.high

theorem Legal.digit (h : p.Legal) (hb : p.Accepts b) :
    p.low.toNat % 0x40 ≤ b.toNat % 0x40 ∧ b.toNat % 0x40 ≤ p.high.toNat % 0x40 ∧
      0x80 ≤ b.toNat ∧ b.toNat ≤ 0xBF := by
  have hlow := h.low
  have hhigh := h.high
  have hb₁ := UInt8.le_iff_toNat_le.mp hb.1
  have hb₂ := UInt8.le_iff_toNat_le.mp hb.2
  omega

/-- The characters that can become of it get fewer. -/
theorem Legal.next (h : p.Legal) (hb : p.Accepts b) (hmissing : 1 < p.missing) :
    (p.next b).Legal ∧ p.least ≤ (p.next b).least ∧ (p.next b).greatest ≤ p.greatest := by
  obtain ⟨hlow, hhigh, -⟩ := h.digit hb
  obtain ⟨bits, missing, low, high⟩ := p
  obtain ⟨rest, rfl⟩ : ∃ rest, missing = rest + 2 := ⟨missing - 2, by simp at hmissing; omega⟩
  simp only at hlow hhigh
  have hleast : filled 0 (rest + 1) (bits * 0x40 + low.toNat % 0x40) ≤
      filled 0 rest ((bits * 0x40 + b.toNat % 0x40) * 0x40) := by
    rw [filled_succ]
    exact filled_mono (by omega)
  have hgreatest : filled 0x3F rest ((bits * 0x40 + b.toNat % 0x40) * 0x40 + 0x3F) ≤
      filled 0x3F (rest + 1) (bits * 0x40 + high.toNat % 0x40) := by
    rw [filled_succ]
    exact filled_mono (by omega)
  have hlast : (0xBF : UInt8).toNat % 0x40 = 0x3F := by decide
  have hfirst : (0x80 : UInt8).toNat % 0x40 = 0 := by decide
  have hvalid := h.valid
  simp only [least, greatest, Partial.next, hlast, hfirst, Nat.add_one_sub_one, Nat.add_zero,
    show rest + 2 - 1 = rest + 1 from rfl] at hvalid ⊢
  have hlow' : 0x80 ≤ (0x80 : UInt8).toNat := by decide
  have hhigh' : (0xBF : UInt8).toNat ≤ 0xBF := by decide
  refine ⟨⟨Nat.succ_pos rest, hlow', hhigh', ?_⟩, hleast, hgreatest⟩
  simp only [least, greatest, hlast, hfirst, Nat.add_one_sub_one, Nat.add_zero]
  omega

/-- A greater octet leads to greater characters. -/
theorem Legal.greatest_lt_least {c : UInt8} (h : p.Legal) (hb : p.Accepts b) (hc : p.Accepts c)
    (hlt : b.toNat < c.toNat) : (p.next b).greatest < (p.next c).least := by
  obtain ⟨-, -, hdigit⟩ := h.digit hb
  obtain ⟨-, -, hdigit'⟩ := h.digit hc
  exact filled_lt (by simp only [Partial.next]; omega)

/-- The last octet gives the character of that number. -/
theorem Legal.char (h : p.Legal) (hb : p.Accepts b) (hmissing : p.missing ≤ 1) :
    (Char.ofNat (p.bits * 0x40 + b.toNat % 0x40)).toNat = p.bits * 0x40 + b.toNat % 0x40 ∧
      p.least ≤ p.bits * 0x40 + b.toNat % 0x40 ∧
      p.bits * 0x40 + b.toNat % 0x40 ≤ p.greatest := by
  obtain ⟨hlow, hhigh, -⟩ := h.digit hb
  obtain ⟨bits, missing, low, high⟩ := p
  have hone : missing = 1 := Nat.le_antisymm hmissing h.missing
  subst hone
  have hvalid := h.valid
  simp only [least, greatest, Nat.sub_self, filled] at hlow hhigh hvalid ⊢
  have hchar : (bits * 0x40 + b.toNat % 0x40).isValidChar := by
    rw [Nat.isValidChar]
    omega
  refine ⟨?_, by omega, by omega⟩
  rw [Char.ofNat, dif_pos hchar]
  rfl

end Partial

instance (p : Partial) : Decidable p.Legal :=
  decidable_of_iff (0 < p.missing ∧ 0x80 ≤ p.low.toNat ∧ p.high.toNat ≤ 0xBF ∧
      (p.greatest < 0xD800 ∨ 0xDFFF < p.least ∧ p.greatest < 0x110000))
    ⟨fun ⟨missing, low, high, valid⟩ => ⟨missing, low, high, valid⟩,
      fun h => ⟨h.missing, h.low, h.high, h.valid⟩⟩

/-- The number of the first character that begins with this octet or a greater one. -/
def floor (b : Nat) : Nat :=
  if b < 0x80 then b
  else if b < 0xC2 then 0x80
  else if b < 0xE0 then (b - 0xC0) * 0x40
  else if b < 0xF0 then max 0x800 ((b - 0xE0) * 0x1000)
  else max 0x10000 ((b - 0xF0) * 0x40000)

theorem floor_mono {a b : Nat} (h : a ≤ b) : floor a ≤ floor b := by
  unfold floor
  repeat' split
  all_goals omega

/-- All characters that begin as a first octet says have numbers from `low` up to `high`. -/
def Lead.Within (low high : Nat) : Lead → Prop
  | .char c => low ≤ c.toNat ∧ c.toNat < high
  | .start p => p.Legal ∧ low ≤ p.least ∧ p.greatest < high
  | .bad => True

instance (low high : Nat) (l : Lead) : Decidable (l.Within low high) :=
  match l with
  | .char c => inferInstanceAs (Decidable (low ≤ c.toNat ∧ c.toNat < high))
  | .start p => inferInstanceAs (Decidable (p.Legal ∧ low ≤ p.least ∧ p.greatest < high))
  | .bad => inferInstanceAs (Decidable True)

theorem lead_within (b : UInt8) : (lead b).Within (floor b.toNat) (floor (b.toNat + 1)) := by
  have hall : ∀ n < 256, (lead (UInt8.ofNat n)).Within (floor n) (floor (n + 1)) := by
    decide +kernel
  have hb := hall b.toNat b.toNat_lt
  rwa [UInt8.ofNat_toNat] at hb

/-! ## Scans without gaps -/

/-- Octets are valid, after the partial character if there is one, and these are the characters. -/
inductive Scanned : Option Partial → Bytes → List Char → Prop where
  | nil : Scanned none [] []
  | char {b : UInt8} {bs : Bytes} {c : Char} {cs : List Char} (first : lead b = .char c)
      (rest : Scanned none bs cs) : Scanned none (b :: bs) (c :: cs)
  | start {b : UInt8} {bs : Bytes} {p : Partial} {cs : List Char} (first : lead b = .start p)
      (rest : Scanned (some p) bs cs) : Scanned none (b :: bs) cs
  | last {b : UInt8} {bs : Bytes} {p : Partial} {cs : List Char} (accepts : p.Accepts b)
      (missing : p.missing ≤ 1) (rest : Scanned none bs cs) :
      Scanned (some p) (b :: bs) (Char.ofNat (p.bits * 0x40 + b.toNat % 0x40) :: cs)
  | next {b : UInt8} {bs : Bytes} {p : Partial} {cs : List Char} (accepts : p.Accepts b)
      (missing : 1 < p.missing) (rest : Scanned (some (p.next b)) bs cs) :
      Scanned (some p) (b :: bs) cs

theorem scanned_of_scanFrom {p? : Option Partial} {bs : Bytes} {cs : List Char}
    (h : scanFrom p? bs = cs.map some) : Scanned p? bs cs := by
  induction bs generalizing p? cs with
  | nil =>
    cases p? with
    | none =>
      cases cs with
      | nil => exact .nil
      | cons c cs => cases h
    | some p => cases cs <;> cases h
  | cons b bs ih =>
    cases p? with
    | none =>
      rw [scanFrom] at h
      cases hlead : lead b with
      | char c =>
        simp only [hlead] at h
        cases cs with
        | nil => cases h
        | cons first rest =>
          obtain ⟨hc, hrest⟩ := List.cons.inj h
          cases hc
          exact .char hlead (ih hrest)
      | start p =>
        simp only [hlead] at h
        exact .start hlead (ih h)
      | bad =>
        simp only [hlead] at h
        cases cs <;> cases h
    | some p =>
      rw [scanFrom] at h
      simp only at h
      split at h
      · next haccepts =>
        have haccepts' : p.Accepts b := by simpa [Partial.Accepts] using haccepts
        split at h
        · next hmissing =>
          cases cs with
          | nil => cases h
          | cons first rest =>
            obtain ⟨hc, hrest⟩ := List.cons.inj h
            cases hc
            exact .last haccepts' hmissing (ih hrest)
        · next hmissing => exact .next haccepts' (Nat.lt_of_not_le hmissing) (ih h)
      · split at h <;> cases cs <;> cases h

/-- What becomes of a partial character. -/
theorem Scanned.first_of_partial {p : Partial} {bs : Bytes} {cs : List Char}
    (h : Scanned (some p) bs cs) (hp : p.Legal) :
    ∃ c rest, cs = c :: rest ∧ p.least ≤ c.toNat ∧ c.toNat ≤ p.greatest := by
  induction bs generalizing p with
  | nil => cases h
  | cons b bs ih =>
    cases h with
    | last accepts missing rest =>
      obtain ⟨hchar, hlow, hhigh⟩ := hp.char accepts missing
      exact ⟨_, _, rfl, by omega, by omega⟩
    | next accepts missing rest =>
      obtain ⟨hnext, hlow, hhigh⟩ := hp.next accepts missing
      obtain ⟨c, cs, rfl, hc, hc'⟩ := ih rest hnext
      exact ⟨c, cs, rfl, by omega, by omega⟩

theorem Scanned.first {b : UInt8} {bs : Bytes} {cs : List Char} (h : Scanned none (b :: bs) cs) :
    ∃ c rest, cs = c :: rest ∧ floor b.toNat ≤ c.toNat ∧ c.toNat < floor (b.toNat + 1) := by
  have hwithin := lead_within b
  cases h with
  | char first rest =>
    rw [first] at hwithin
    exact ⟨_, _, rfl, hwithin.1, hwithin.2⟩
  | start first rest =>
    rw [first] at hwithin
    obtain ⟨hlegal, hlow, hhigh⟩ := hwithin
    obtain ⟨c, cs, rfl, hc, hc'⟩ := rest.first_of_partial hlegal
    exact ⟨c, cs, rfl, by omega, by omega⟩

theorem legal_of_lead {b : UInt8} {p : Partial} (h : lead b = .start p) : p.Legal := by
  have hwithin := lead_within b
  rw [h] at hwithin
  exact hwithin.1

theorem not_lt_of_first {cs ds cs' ds' : List Char} {c d : Char} (hcs : cs = c :: cs')
    (hds : ds = d :: ds') (h : c.toNat < d.toNat) : ¬ds < cs := by
  subst hcs hds
  intro hlt
  rcases List.cons_lt_cons_iff.mp hlt with hchar | ⟨rfl, -⟩
  · exact Nat.lt_asymm h hchar
  · exact Nat.lt_irrefl _ h

theorem not_cons_lt {cs ds : List Char} (c : Char) (h : ¬ds < cs) : ¬c :: ds < c :: cs := by
  intro hlt
  rcases List.cons_lt_cons_iff.mp hlt with hchar | ⟨-, hrest⟩
  · exact Nat.lt_irrefl c.toNat hchar
  · exact h hrest

/-- A greater octet gives a greater character. -/
theorem Scanned.not_lt_of_lt {p? : Option Partial} {x y : UInt8} {xs ys : Bytes} {cs ds : List Char}
    (hx : Scanned p? (x :: xs) cs) (hy : Scanned p? (y :: ys) ds)
    (hp : ∀ p, p? = some p → p.Legal) (hlt : x.toNat < y.toNat) : ¬ds < cs := by
  cases p? with
  | none =>
    obtain ⟨c, cs', hcs, -, hc⟩ := hx.first
    obtain ⟨d, ds', hds, hd, -⟩ := hy.first
    have hfloor : floor (x.toNat + 1) ≤ floor y.toNat := floor_mono hlt
    exact not_lt_of_first hcs hds (by omega)
  | some p =>
    have hlegal := hp p rfl
    cases hx with
    | last accepts missing rest =>
      cases hy with
      | last accepts' missing' rest' =>
        obtain ⟨hc, -⟩ := hlegal.char accepts missing
        obtain ⟨hd, -⟩ := hlegal.char accepts' missing'
        obtain ⟨-, -, hdigit⟩ := hlegal.digit accepts
        obtain ⟨-, -, hdigit'⟩ := hlegal.digit accepts'
        exact not_lt_of_first rfl rfl (by omega)
      | next accepts' missing' rest' => omega
    | next accepts missing rest =>
      cases hy with
      | last accepts' missing' rest' => omega
      | next accepts' missing' rest' =>
        obtain ⟨c, cs', hcs, -, hc⟩ := rest.first_of_partial (hlegal.next accepts missing).1
        obtain ⟨d, ds', hds, hd, -⟩ := rest'.first_of_partial (hlegal.next accepts' missing').1
        have hbetween := hlegal.greatest_lt_least accepts accepts' hlt
        exact not_lt_of_first hcs hds (by omega)

/-- Texts are in the order of their octets. -/
theorem Scanned.not_lt {p? : Option Partial} {xs ys : Bytes} {cs ds : List Char}
    (hx : Scanned p? xs cs) (hy : Scanned p? ys ds) (hp : ∀ p, p? = some p → p.Legal)
    (hle : compare xs ys ≠ .gt) : ¬ds < cs := by
  induction xs generalizing p? ys cs ds with
  | nil =>
    cases hx
    exact List.not_lt_nil ds
  | cons x xs ih =>
    cases ys with
    | nil => exact absurd rfl hle
    | cons y ys =>
      have hcompare : compare (x :: xs) (y :: ys) = (compare x y).then (compare xs ys) :=
        List.compareLex_cons_cons
      rw [hcompare] at hle
      cases hxy : compare x y with
      | lt => exact hx.not_lt_of_lt hy hp (UInt8.lt_iff_toNat_lt.mp (Std.compare_eq_lt.mp hxy))
      | gt =>
        rw [hxy] at hle
        exact absurd rfl hle
      | eq =>
        rw [hxy] at hle
        cases Std.LawfulEqOrd.eq_of_compare hxy
        cases hx with
        | char first rest =>
          cases hy with
          | char first' rest' =>
            cases first.symm.trans first'
            exact not_cons_lt _ (ih rest rest' nofun hle)
          | start first' rest' => cases first.symm.trans first'
        | start first rest =>
          cases hy with
          | char first' rest' => cases first.symm.trans first'
          | start first' rest' =>
            cases first.symm.trans first'
            refine ih rest rest' ?_ hle
            rintro _ ⟨⟩
            exact legal_of_lead first
        | last accepts missing rest =>
          cases hy with
          | last accepts' missing' rest' =>
            exact not_cons_lt _ (ih rest rest' nofun hle)
          | next accepts' missing' rest' => omega
        | next accepts missing rest =>
          cases hy with
          | last accepts' missing' rest' => omega
          | next accepts' missing' rest' =>
            refine ih rest rest' ?_ hle
            rintro _ ⟨⟩
            exact ((hp _ rfl).next accepts missing).1

theorem mapM_id_eq_some {α : Type} {items : List (Option α)} {as : List α}
    (h : items.mapM id = some as) : items = as.map some := by
  induction items generalizing as with
  | nil =>
    cases h
    rfl
  | cons item items ih =>
    rw [List.mapM_cons] at h
    obtain ⟨a, hitem, h⟩ := Option.bind_eq_some_iff.mp h
    obtain ⟨rest, hrest, h⟩ := Option.bind_eq_some_iff.mp h
    cases h
    rw [List.map_cons, ih hrest, show item = some a from hitem]

/-- Names that are in the order of their octets are in order as texts. -/
theorem le_of_decode {a b : Bytes} {s t : String} (h : compare a b ≠ .gt)
    (ha : decode? a = some s) (hb : decode? b = some t) : s ≤ t := by
  obtain ⟨cs, hcs, rfl⟩ := Option.map_eq_some_iff.mp ha
  obtain ⟨ds, hds, rfl⟩ := Option.map_eq_some_iff.mp hb
  have hnot : ¬ds < cs := (scanned_of_scanFrom (mapM_id_eq_some hcs)).not_lt
    (scanned_of_scanFrom (mapM_id_eq_some hds)) nofun h
  change ¬(String.ofList ds).toList < (String.ofList cs).toList
  rwa [String.toList_ofList, String.toList_ofList]

end Utf8

/-! ## Sorted tables of names -/

/-- Names are in the order of their octets. -/
def NameSorted {α : Type} (files : List (Bytes × α)) : Prop :=
  files.Pairwise fun a b => compare a.1 b.1 ≠ .gt

/-- Sorting by a name puts the names in order. -/
theorem pairwise_mergeSort_key {α : Type} (key : α → Bytes) (items : List α) :
    (items.mergeSort fun a b => compare (key a) (key b) != .gt).Pairwise
      fun a b => compare (key a) (key b) ≠ .gt := by
  have htrans (a b c : α) : (compare (key a) (key b) != .gt) = true →
      (compare (key b) (key c) != .gt) = true → (compare (key a) (key c) != .gt) = true := by
    simp only [bne_iff_ne, Ordering.ne_gt_iff_isLE]
    exact Std.TransCmp.isLE_trans
  have htotal (a b : α) :
      ((compare (key a) (key b) != .gt) || (compare (key b) (key a) != .gt)) = true := by
    have hswap : compare (key b) (key a) = (compare (key a) (key b)).swap := Std.OrientedCmp.eq_swap
    rw [hswap]
    cases compare (key a) (key b) <;> rfl
  exact (List.pairwise_mergeSort htrans htotal items).imp fun h => bne_iff_ne.mp h

namespace NameSorted

variable {α : Type} {files : List (Bytes × α)}

instance (files : List (Bytes × α)) : Decidable (NameSorted files) :=
  inferInstanceAs (Decidable (files.Pairwise _))

theorem mergeSort (files : List (Bytes × α)) :
    NameSorted (files.mergeSort fun a b => compare a.1 b.1 != .gt) :=
  pairwise_mergeSort_key Prod.fst files

/-- Names that stand in a sorted table are in order as texts. -/
theorem texts (h : NameSorted files) {names : List Bytes} (hsub : names.Sublist (Table.keys files)) :
    (names.filterMap Utf8.decode?).Pairwise (· ≤ ·) := by
  have hkeys : (Table.keys files).Pairwise fun a b => compare a b ≠ .gt := List.pairwise_map.mpr h
  exact List.pairwise_filterMap.mpr ((hkeys.sublist hsub).imp fun hle s hs t ht =>
    Utf8.le_of_decode hle hs ht)

end NameSorted

theorem Table.lastOfEqual_sublist {κ α : Type} [Ord κ] (items : List (κ × α)) :
    (lastOfEqual items).Sublist items := by
  fun_induction lastOfEqual items with
  | case1 a b items _ ih => exact ih.trans (List.sublist_cons_self a _)
  | case2 a b items _ ih => exact ih.cons_cons a
  | case3 items => exact List.Sublist.refl _

theorem Table.nameSorted_ofList {α : Type} (items : List (Bytes × α)) :
    NameSorted (Table.ofList items) :=
  (NameSorted.mergeSort items).sublist (lastOfEqual_sublist _)

theorem PackedRefs.nameSorted_read {content : Bytes} {packed : Table Bytes ObjectId}
    (h : read? content = some packed) : NameSorted packed := by
  obtain ⟨rest, -, h⟩ := Option.bind_eq_some_iff.mp h
  obtain ⟨entries, -, h⟩ := Option.bind_eq_some_iff.mp h
  cases h
  exact Table.nameSorted_ofList entries

namespace Disk

theorem nameSorted_packedRefs {d : Disk} {p : RepositoryPlaces} {packed : Table Bytes ObjectId}
    (h : d.packedRefs? p = some packed) : NameSorted packed := by
  unfold packedRefs? at h
  split at h
  · exact PackedRefs.nameSorted_read h
  · cases h
    exact List.Pairwise.nil
  · cases h
    exact List.Pairwise.nil
  · cases h

theorem nameSorted_looseFiles (d : Disk) (p : RepositoryPlaces) : NameSorted (d.looseFiles p) := by
  unfold looseFiles
  split
  · exact List.Pairwise.nil
  · exact NameSorted.mergeSort _

end Disk

end TagRegistry
