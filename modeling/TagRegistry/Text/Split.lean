/-! Cutting a list in two: at a separator, or behind a known front part. `List.splitOn` cuts
at every separator; here only the first or only the last one counts. -/

namespace TagRegistry.Text

variable {α : Type} [DecidableEq α]

/-- What stands before and after the first `sep`. -/
def cutFirst (sep : α) : List α → Option (List α × List α)
  | [] => none
  | x :: xs =>
    if x = sep then some ([], xs)
    else (cutFirst sep xs).map fun (before, after) => (x :: before, after)

/-- What stands before and after the last `sep`. -/
def cutLast (sep : α) (xs : List α) : Option (List α × List α) :=
  (cutFirst sep xs.reverse).map fun (after, before) => (before.reverse, after.reverse)

/-- What follows `front`, if the list starts with it. -/
def dropFront? : List α → List α → Option (List α)
  | [], xs => some xs
  | _ :: _, [] => none
  | f :: front, x :: xs => if f = x then dropFront? front xs else none

/-- What precedes `back`, if the list ends with it. -/
def dropBack? (back xs : List α) : Option (List α) :=
  (dropFront? back.reverse xs.reverse).map List.reverse

theorem dropFront?_eq_some_iff (front xs rest : List α) :
    dropFront? front xs = some rest ↔ xs = front ++ rest := by
  induction front generalizing xs with
  | nil => simp [dropFront?]
  | cons f front ih =>
    cases xs with
    | nil => simp [dropFront?]
    | cons x xs =>
      by_cases h : f = x
      · simp [dropFront?, h, ih]
      · simp [dropFront?, h, Ne.symm h]

theorem dropBack?_eq_some_iff (back xs rest : List α) :
    dropBack? back xs = some rest ↔ xs = rest ++ back := by
  simp only [dropBack?, Option.map_eq_some_iff, dropFront?_eq_some_iff]
  constructor
  · rintro ⟨r, h, rfl⟩
    have := congrArg List.reverse h
    simpa using this
  · rintro rfl
    exact ⟨rest.reverse, by simp, by simp⟩

theorem cutFirst_eq_none_iff (sep : α) (xs : List α) : cutFirst sep xs = none ↔ sep ∉ xs := by
  induction xs with
  | nil => simp [cutFirst]
  | cons x xs ih =>
    by_cases h : x = sep
    · simp [cutFirst, h]
    · simp [cutFirst, h, ih, Ne.symm h]

theorem cutFirst_eq_some_iff (sep : α) (xs before after : List α) :
    cutFirst sep xs = some (before, after) ↔ sep ∉ before ∧ xs = before ++ sep :: after := by
  induction xs generalizing before with
  | nil => simp [cutFirst]
  | cons x xs ih =>
    by_cases h : x = sep
    · subst h
      cases before with
      | nil => simp [cutFirst, eq_comm]
      | cons b bs => simp [cutFirst]; intro h1 h2 h3; exact absurd h3 h1
    · cases before with
      | nil => simp [cutFirst, h]
      | cons b bs =>
        simp only [cutFirst, h, if_false, Option.map_eq_some_iff, Prod.exists, Prod.mk.injEq,
          List.cons.injEq, List.mem_cons, not_or, List.cons_append]
        constructor
        · rintro ⟨a, c, hc, ⟨rfl, rfl⟩, rfl⟩
          obtain ⟨h1, h2⟩ := (ih a).mp hc
          exact ⟨⟨Ne.symm h, h1⟩, rfl, h2⟩
        · rintro ⟨⟨_, h1⟩, rfl, h2⟩
          exact ⟨bs, after, (ih bs).mpr ⟨h1, h2⟩, ⟨rfl, rfl⟩, rfl⟩

theorem cutLast_eq_none_iff (sep : α) (xs : List α) : cutLast sep xs = none ↔ sep ∉ xs := by
  rw [cutLast, Option.map_eq_none_iff, cutFirst_eq_none_iff, List.mem_reverse]

theorem cutLast_eq_some_iff (sep : α) (xs before after : List α) :
    cutLast sep xs = some (before, after) ↔ sep ∉ after ∧ xs = before ++ sep :: after := by
  simp only [cutLast, Option.map_eq_some_iff, Prod.exists, Prod.mk.injEq, cutFirst_eq_some_iff]
  constructor
  · rintro ⟨back, front, ⟨hsep, hxs⟩, rfl, rfl⟩
    have hrev := congrArg List.reverse hxs
    exact ⟨by simpa using hsep, by simpa using hrev⟩
  · rintro ⟨hsep, rfl⟩
    exact ⟨after.reverse, before.reverse, ⟨by simpa using hsep, by simp⟩, by simp, by simp⟩

section Pieces

variable {β : Type} {sep : β}

/-- No piece between separators holds one. -/
theorem not_mem_of_mem_splitOn [BEq β] [LawfulBEq β] {xs piece : List β}
    (h : piece ∈ xs.splitOn sep) : sep ∉ piece := by
  induction xs generalizing piece with
  | nil =>
    rw [List.splitOn_nil, List.mem_singleton] at h
    simp [h]
  | cons x xs ih =>
    rw [List.splitOn_cons_eq_if_modifyHead] at h
    obtain ⟨first, rest, hs⟩ := List.exists_cons_of_ne_nil (List.splitOn_ne_nil sep xs)
    rw [hs] at h ih
    split at h
    · rcases List.mem_cons.mp h with rfl | h
      · exact List.not_mem_nil
      · exact ih h
    · next hne =>
      rcases List.mem_cons.mp h with rfl | h
      · rintro (_ | ⟨_, hmem⟩)
        · exact hne BEq.rfl
        · exact ih List.mem_cons_self hmem
      · exact ih (List.mem_cons_of_mem first h)

theorem mem_of_mem_intercalate {b : β} {words : List (List β)}
    (h : b ∈ [sep].intercalate words) : b = sep ∨ ∃ word ∈ words, b ∈ word := by
  induction words with
  | nil => simp at h
  | cons word words ih =>
    cases words with
    | nil => exact .inr ⟨word, List.mem_cons_self, by simpa using h⟩
    | cons next words =>
      rw [List.intercalate_cons_cons, List.append_assoc, List.mem_append, List.mem_append] at h
      rcases h with h | h | h
      · exact .inr ⟨word, List.mem_cons_self, h⟩
      · exact .inl (List.mem_singleton.mp h)
      · exact (ih h).imp_right fun ⟨w, hw, hb⟩ => ⟨w, List.mem_cons_of_mem word hw, hb⟩

theorem intercalate_concat {words : List (List β)} (hne : words ≠ []) (word : List β) :
    [sep].intercalate (words ++ [word]) = [sep].intercalate words ++ sep :: word := by
  induction words with
  | nil => exact absurd rfl hne
  | cons first words ih =>
    cases words with
    | nil => simp [List.intercalate_cons_cons]
    | cons next words =>
      rw [List.cons_append, List.cons_append, List.intercalate_cons_cons, ← List.cons_append,
        ih (List.cons_ne_nil next words), List.intercalate_cons_cons]
      simp

/-- Leaving out words leaves out parts of the text. -/
theorem intercalate_sublist {words words' : List (List β)} (h : words.Sublist words') :
    ([sep].intercalate words).Sublist ([sep].intercalate words') := by
  induction h with
  | slnil => exact .slnil
  | @cons words words' word h ih =>
    cases words' with
    | nil =>
      rw [List.eq_nil_of_sublist_nil h]
      exact List.nil_sublist _
    | cons next words' =>
      rw [List.intercalate_cons_cons]
      exact ih.trans (List.sublist_append_right _ _)
  | @cons_cons words words' word h ih =>
    cases words with
    | nil =>
      cases words' with
      | nil => exact .refl _
      | cons next words' =>
        rw [List.intercalate_cons_cons, List.append_assoc]
        simp
    | cons first words =>
      cases words' with
      | nil => cases h
      | cons next words' =>
        rw [List.intercalate_cons_cons, List.intercalate_cons_cons]
        exact (List.Sublist.refl _).append ih

end Pieces

end TagRegistry.Text
