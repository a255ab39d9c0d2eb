import TagRegistry.Proofs.PathSteps
import TagRegistry.Proofs.TarReader

/-! What the name and link fields of a header hold.

A field that is filled without a refusal holds all pieces in order, and NULs behind them. For
names that a repository may hold the pieces make up the path itself. For links they make up a
text that leads through the same steps as the target. -/

namespace TagRegistry

open Bytes (slash dot beforeNul)

namespace Tar

open TagRegistry.Path (Component)

/-! ## Filling a field -/

/-- A field that holds these octets and nothing else. -/
def Field.written (bs : Bytes) : Field := ⟨fit fieldSize bs, bs.length⟩

theorem Field.blank_eq : Field.blank = Field.written [] := by
  simp [Field.blank, Field.written, fit]

/-- Closing octets with a NUL in front of NULs, as far as the field goes, changes nothing. -/
theorem take_closed {bs : Bytes} {n : Nat} (hle : bs.length ≤ fieldSize)
    (hn : fieldSize ≤ bs.length + 1 + n) :
    (bs ++ [0] ++ List.replicate n 0).take fieldSize = fit fieldSize bs := by
  have hzeros : ([0] ++ List.replicate n 0 : Bytes) = List.replicate (n + 1) 0 := rfl
  rw [List.append_assoc, hzeros, List.take_append, List.take_replicate, fit,
    Nat.min_eq_left (by omega)]

theorem Field.copy_written {bs piece : Bytes} {g : Field} (hle : bs.length ≤ fieldSize)
    (h : (written bs).copy piece = .ok g) :
    g = written (bs ++ piece) ∧ (bs ++ piece).length ≤ fieldSize ∧ 0 ∉ piece := by
  unfold Field.copy at h
  split at h
  · cases h
  · next hlength =>
    split at h
    · cases h
    · next hnul =>
      cases h
      have htotal : (bs ++ piece).length ≤ fieldSize := by
        rw [List.length_append]
        exact Nat.le_of_not_lt hlength
      have hfit : fit fieldSize bs = bs ++ List.replicate (fieldSize - bs.length) 0 := by
        rw [fit, List.take_of_length_le hle]
      have hdrop : (fit fieldSize bs).drop (bs ++ piece ++ [0]).length =
          List.replicate (fieldSize - (bs ++ piece).length - 1) 0 := by
        rw [hfit, List.drop_append, List.drop_eq_nil_of_le (by simp), List.nil_append,
          List.drop_replicate]
        congr 1
        simp only [List.length_append, List.length_singleton]
        omega
      refine ⟨?_, htotal, by simpa using hnul⟩
      rw [written, written, hfit, List.take_left' rfl, ← hfit, hdrop,
        take_closed htotal (by omega), List.length_append]

/-- The octets that pieces make up. -/
def spelled (pieces : List Piece) : Bytes :=
  pieces.flatMap fun
    | .ok word => word
    | .error _ => []

/-- A field that takes all pieces holds what they make up. -/
theorem Field.fill_written {pieces : List Piece} {bs : Bytes} {g : Field}
    (hle : bs.length ≤ fieldSize) (h : (written bs).fill pieces = (g, none)) :
    g = written (bs ++ spelled pieces) ∧ (bs ++ spelled pieces).length ≤ fieldSize ∧
      0 ∉ spelled pieces ∧ ∀ fault, .error fault ∉ pieces := by
  -- What the field holds so far is free, since each piece that is taken adds to it.
  induction pieces generalizing bs with
  | nil =>
    cases h
    simpa [spelled] using hle
  | cons piece pieces ih =>
    cases piece with
    | error fault => cases h
    | ok word =>
      rw [Field.fill] at h
      cases hcopy : (written bs).copy word with
      | error fault =>
        rw [hcopy] at h
        cases h
      | ok next =>
        rw [hcopy] at h
        obtain ⟨rfl, hlength, hnul⟩ := copy_written hle hcopy
        obtain ⟨hg, hlength, hrest, hfault⟩ := ih hlength h
        have hspelled : spelled (.ok word :: pieces) = word ++ spelled pieces := rfl
        rw [hspelled, ← List.append_assoc]
        exact ⟨hg, hlength, by simp [hnul, hrest], by simpa using hfault⟩

theorem spelled_append (a b : List Piece) : spelled (a ++ b) = spelled a ++ spelled b :=
  List.flatMap_append

/-- Words without slashes are set apart by one slash each. -/
theorem spelled_joinWords {words : List Bytes} (h : ∀ word ∈ words, slash ∉ word)
    (afterWord : Bool) :
    spelled (joinWords afterWord (words.map .ok)) =
      (if afterWord ∧ words ≠ [] then [slash] else []) ++ [slash].intercalate words := by
  induction words generalizing afterWord with
  | nil => simp [joinWords, spelled]
  | cons word words ih =>
    have hword : slash ∉ word := h word List.mem_cons_self
    have hne : (word != [slash]) = true := by
      rw [bne_iff_ne]
      rintro rfl
      exact hword List.mem_cons_self
    have hrest := ih (fun w hw => h w (List.mem_cons_of_mem word hw)) true
    rw [List.map_cons, joinWords, hne, Bool.or_true, spelled_append]
    have hcons : ∀ pieces, spelled (.ok word :: pieces) = word ++ spelled pieces := fun _ => rfl
    rw [hcons, hrest]
    cases afterWord <;> cases words <;> simp [spelled]

/-! ## Names and targets -/

theorem spelled_namePieces {path : Bytes} (h : Path.LegalPath path) :
    spelled (namePieces false path) = path := by
  have hwords (alone : Bool) (names : List Bytes) :
      nameWords false alone (names.map .normal) = names.map .ok := by
    induction names with
    | nil => rfl
    | cons name names ih => rw [List.map_cons, nameWords, ih, List.map_cons]
  have hslash : ∀ piece ∈ path.splitOn slash, slash ∉ piece := fun _ => Text.not_mem_of_mem_splitOn
  simp only [namePieces, Path.components_of_legal h, hwords]
  rw [piecesOf, if_neg (by simp), h.endsWithSlash, if_neg Bool.false_ne_true, List.append_nil,
    spelled_joinWords hslash, if_neg (by simp), List.nil_append, List.intercalate_splitOn]

/-- A legal path that its field holds is read as it is. -/
theorem recordName_short {path : Bytes} {r : Recorded} (h : Path.LegalPath path)
    (hr : recordName path = .ok r) (hshort : r.isLong = false) :
    beforeNul (fit fieldSize r.field) = path := by
  unfold recordName at hr
  split at hr
  · next f hfill =>
    cases hr
    rw [Field.blank_eq] at hfill
    obtain ⟨rfl, hlength, -, -⟩ := Field.fill_written (Nat.zero_le _) hfill
    rw [List.nil_append, spelled_namePieces h] at hlength ⊢
    rw [Field.written, fit_fit, beforeNul_fit hlength, beforeNul_of_not_mem h.no_nul]
  · split at hr
    · cases hr
    · split at hr
      · cases hr
        cases hshort
      · cases hr

theorem linkWord_eq (c : Component) : linkWord c = .ok c.text := by
  cases c <;> rfl

theorem map_linkWord (cs : List Component) :
    cs.map linkWord = (cs.map Component.text).map .ok := by
  rw [List.map_map]
  exact List.map_congr_left fun c _ => linkWord_eq c

theorem spelled_words {cs : List Component} (h : ∀ c ∈ cs, slash ∉ c.text) :
    spelled (joinWords false (cs.map linkWord)) = Path.joined cs := by
  rw [map_linkWord, spelled_joinWords (by simpa using h), if_neg (by simp), List.nil_append]
  rfl

theorem spelled_components (path : Bytes) :
    spelled (joinWords false ((Path.components path).map linkWord)) =
      Path.spelling (Path.components path) := by
  have hslash (p : Bytes) : ∀ c ∈ Path.steps p, slash ∉ c.text := fun c hc =>
    (Path.inner_of_mem_steps hc).no_slash
  obtain h | ⟨rest, rfl, h⟩ | ⟨rest, hs, h⟩ := Path.begin_cases path
  · rw [h, spelled_words (hslash path), Path.spelling_of_inner fun c => Path.inner_of_mem_steps]
  · -- A slash is put in front of a word only if another word than the root stands there.
    have hroot (pieces : List Piece) :
        spelled (joinWords false (.ok [slash] :: pieces)) =
          slash :: spelled (joinWords false pieces) := rfl
    rw [h, List.map_cons, linkWord_eq, Component.text, hroot, spelled_words (hslash rest),
      Path.spelling]
  · rw [h, spelled_words (by simpa using ⟨by decide, hslash path⟩)]
    rfl

theorem spelled_tail (closed : Bool) :
    spelled (if closed then [.ok [slash]] else []) = if closed then [slash] else [] := by
  cases closed <;> rfl

theorem spelled_linkPieces {target : Bytes} (h : Path.components target ≠ []) :
    spelled (linkPieces target) = Path.spelling (Path.components target) ++
      if Path.endsWithSlash target then [slash] else [] := by
  rw [linkPieces, piecesOf, if_neg (by simpa using h), spelled_append, spelled_components,
    spelled_tail]

theorem components_spelled_linkPieces {target : Bytes}
    (h : ∀ fault, .error fault ∉ linkPieces target) :
    Path.components (spelled (linkPieces target)) = Path.components target := by
  have hne : Path.components target ≠ [] := by
    intro hnil
    exact h .noComponent (by simp [linkPieces, piecesOf, hnil])
  have htarget : target ≠ [] := by
    rintro rfl
    exact hne rfl
  have hspelling := Path.components_spelling htarget
  have hopen : Path.spelling (Path.components target) ≠ [] := by
    intro hnil
    rw [hnil] at hspelling
    exact hne hspelling.symm
  rw [spelled_linkPieces hne, Path.components_append_tail hopen, hspelling]

/-- A target that its field holds is read as a text that leads through the same steps. -/
theorem recordLink_short {nameField target : Bytes} {r : Recorded}
    (hr : recordLink nameField target = .ok r) (hshort : r.isLong = false) :
    Path.components (beforeNul (fit fieldSize r.field)) = Path.components target := by
  unfold recordLink at hr
  split at hr
  · next f hfill =>
    cases hr
    rw [Field.blank_eq] at hfill
    obtain ⟨rfl, hlength, hnul, hfault⟩ := Field.fill_written (Nat.zero_le _) hfill
    rw [List.nil_append] at hlength ⊢
    rw [Field.written, fit_fit, beforeNul_fit hlength, beforeNul_of_not_mem hnul,
      components_spelled_linkPieces hfault]
  · split at hr
    · cases hr
    · cases hr
      cases hshort

end Tar

end TagRegistry
