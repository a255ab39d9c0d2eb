import TagRegistry.Proofs.TarName

/-! Which names and link targets a header takes.

A field takes pieces that are all allowed, hold no NUL and are short enough together. The name of a
member is recorded if its own pieces fit, or, from a length of 100 octets on, if those of the front
part that is valid text do. -/

namespace TagRegistry.Tar

open Bytes (slash dot)
open TagRegistry.Path (Component)

/-! ## What a field takes -/

/-- Pieces that a field takes one after the other. -/
structure FitsField (pieces : List Piece) : Prop where
  allowed : ∀ fault, .error fault ∉ pieces
  short : (spelled pieces).length ≤ fieldSize
  no_nul : 0 ∉ spelled pieces

theorem Field.fill_none_iff {f : Field} {pieces : List Piece} (h : f.used ≤ fieldSize) :
    (f.fill pieces).2 = none ↔ (∀ fault, .error fault ∉ pieces) ∧
      f.used + (spelled pieces).length ≤ fieldSize ∧ 0 ∉ spelled pieces := by
  induction pieces generalizing f with
  | nil => simpa [Field.fill, spelled] using h
  | cons piece pieces ih =>
    cases piece with
    | error fault =>
      simp only [Field.fill, reduceCtorEq, false_iff]
      rintro ⟨hallowed, -⟩
      exact hallowed fault List.mem_cons_self
    | ok word =>
      have hspelled : spelled (.ok word :: pieces) = word ++ spelled pieces := rfl
      rw [Field.fill, Field.copy, hspelled, List.length_append]
      by_cases hlong : fieldSize < f.used + word.length
      · rw [if_pos hlong]
        simp only [reduceCtorEq, false_iff]
        rintro ⟨-, hlength, -⟩
        omega
      · rw [if_neg hlong]
        by_cases hnul : 0 ∈ word
        · rw [if_pos (List.contains_iff_mem.mpr hnul)]
          simp [hnul]
        · rw [if_neg (mt List.contains_iff_mem.mp hnul)]
          simp only []
          rw [ih (Nat.le_of_not_lt hlong)]
          simp [hnul, Nat.add_assoc]

theorem fitsField_iff {f : Field} (pieces : List Piece) (h : f.used = 0) :
    (f.fill pieces).2 = none ↔ FitsField pieces := by
  rw [Field.fill_none_iff (by omega), h, Nat.zero_add]
  exact ⟨fun ⟨ha, hs, hn⟩ => ⟨ha, hs, hn⟩, fun ⟨ha, hs, hn⟩ => ⟨ha, hs, hn⟩⟩

/-! ## The ways in which a name is recorded -/

/-- The front part of a name that goes into its field if the whole does not. -/
def cutName (path : Bytes) : Bytes := Utf8.validPrefix (path.take fieldSize)

/-- The ways in which the question for a member's name ends. -/
inductive NameAnswer (path : Bytes) : Except NameError Recorded → Prop where
  | short (fits : FitsField (namePieces false path)) :
      NameAnswer path (.ok ⟨fit fieldSize (spelled (namePieces false path)), false⟩)
  | long {field : Bytes} (unfit : ¬FitsField (namePieces false path))
      (length : fieldSize ≤ path.length) (front : FitsField (namePieces true (cutName path))) :
      NameAnswer path (.ok ⟨field, true⟩)
  | refused {cause : NameError} (unfit : ¬FitsField (namePieces false path))
      (front : fieldSize ≤ path.length → ¬FitsField (namePieces true (cutName path))) :
      NameAnswer path (.error cause)

theorem recordName_answer (path : Bytes) : NameAnswer path (recordName path) := by
  unfold recordName
  cases hfill : Field.blank.fill (namePieces false path) with
  | mk f result =>
    have hfits := fitsField_iff (namePieces false path) (rfl : Field.blank.used = 0)
    rw [hfill] at hfits
    cases result with
    | none =>
      rw [Field.blank_eq] at hfill
      obtain ⟨rfl, -, -, -⟩ := Field.fill_written (Nat.zero_le _) hfill
      exact .short (hfits.mp rfl)
    | some fault =>
      have hunfit : ¬FitsField (namePieces false path) := fun h => nomatch hfits.mpr h
      by_cases hlength : path.length < fieldSize
      · simp only [if_pos hlength]
        exact .refused hunfit fun hle => absurd hlength (Nat.not_lt.mpr hle)
      · simp only [if_neg hlength]
        have hfront := fitsField_iff (namePieces true (cutName path)) (rfl : f.rewind.used = 0)
        rw [cutName] at hfront
        cases hcut : f.rewind.fill (namePieces true (Utf8.validPrefix (path.take fieldSize))) with
        | mk g result =>
          rw [hcut] at hfront
          cases result with
          | none => exact .long hunfit (Nat.le_of_not_lt hlength) (hfront.mp rfl)
          | some fault => exact .refused hunfit fun _ h => nomatch hfront.mpr h

/-- A name of which no front part is valid text has no component to put into the field. -/
theorem recordName_of_cutName_nil {path : Bytes} (hunfit : ¬FitsField (namePieces false path))
    (hlength : fieldSize ≤ path.length) (hcut : cutName path = []) :
    ∃ shown, recordName path = .error ⟨.path, .noComponent, shown⟩ := by
  have hfits := fitsField_iff (namePieces false path) (rfl : Field.blank.used = 0)
  rw [cutName] at hcut
  unfold recordName
  cases hfill : Field.blank.fill (namePieces false path) with
  | mk f result =>
    rw [hfill] at hfits
    cases result with
    | none => exact absurd (hfits.mp rfl) hunfit
    | some fault =>
      simp only [if_neg (Nat.not_lt.mpr hlength), hcut]
      exact ⟨_, rfl⟩

/-! ## Words and the pieces made of them -/

theorem error_mem_joinWords {words : List Piece} {fault : NameFault} {afterWord : Bool}
    (h : .error fault ∈ joinWords afterWord words) : .error fault ∈ words := by
  induction words generalizing afterWord with
  | nil => cases h
  | cons word words ih =>
    cases word with
    | error cause =>
      rw [joinWords, List.mem_singleton] at h
      rw [h]
      exact List.mem_cons_self
    | ok word =>
      have hword : .error fault ∈ joinWords (afterWord || word != [slash]) words := by
        cases afterWord <;> simpa [joinWords] using h
      exact List.mem_cons_of_mem _ (ih hword)

/-- What words make up in a field: themselves, set apart by slashes, and the slash at the end of
the path that they are the words of. -/
def wordText (path : Bytes) (words : List Bytes) : Bytes :=
  [slash].intercalate words ++ if Path.endsWithSlash path then [slash] else []

theorem error_not_mem_piecesOf {path : Bytes} {words : List Bytes} (h : words ≠ [])
    (fault : NameFault) : .error fault ∉ piecesOf path (words.map .ok) := by
  intro hmem
  rw [piecesOf, if_neg (by simpa using h), List.mem_append] at hmem
  rcases hmem with hmem | hmem
  · simpa using error_mem_joinWords hmem
  · split at hmem <;> simp at hmem

theorem spelled_piecesOf (path : Bytes) {words : List Bytes} (hne : words ≠ [])
    (hslash : ∀ word ∈ words, slash ∉ word) :
    spelled (piecesOf path (words.map .ok)) = wordText path words := by
  rw [piecesOf, if_neg (by simpa using hne), spelled_append, spelled_tail,
    spelled_joinWords hslash, if_neg (by simp), List.nil_append, wordText]

theorem fitsField_piecesOf {path : Bytes} {words : List Bytes}
    (hslash : ∀ word ∈ words, slash ∉ word) :
    FitsField (piecesOf path (words.map .ok)) ↔
      words ≠ [] ∧ (wordText path words).length ≤ fieldSize ∧ 0 ∉ wordText path words := by
  by_cases hne : words = []
  · subst hne
    refine ⟨fun h => absurd ?_ (h.allowed .noComponent), fun h => absurd rfl h.1⟩
    exact List.mem_cons_self
  have hspelled := spelled_piecesOf path hne hslash
  constructor
  · intro h
    exact ⟨hne, hspelled ▸ h.short, hspelled ▸ h.no_nul⟩
  · rintro ⟨-, hshort, hnul⟩
    exact ⟨error_not_mem_piecesOf hne, hspelled ▸ hshort, hspelled ▸ hnul⟩

/-! ## Names that a repository may hold -/

theorem nameWords_normal (cut alone : Bool) (names : List Bytes) (cs : List Component) :
    nameWords cut alone (names.map .normal ++ cs) = names.map .ok ++ nameWords cut alone cs := by
  induction names with
  | nil => rfl
  | cons name names ih =>
    rw [List.map_cons, List.cons_append, nameWords, ih, List.map_cons, List.cons_append]

theorem namePieces_of_legal {path : Bytes} (h : Path.LegalPath path) (cut : Bool) :
    namePieces cut path = piecesOf path ((path.splitOn slash).map .ok) := by
  have hwords (alone : Bool) :
      nameWords cut alone ((path.splitOn slash).map .normal) = (path.splitOn slash).map .ok := by
    have hnormal := nameWords_normal cut alone (path.splitOn slash) []
    rwa [nameWords, List.append_nil, List.append_nil] at hnormal
  simp only [namePieces, Path.components_of_legal h, hwords]

theorem wordText_of_legal {path : Bytes} (h : Path.LegalPath path) :
    wordText path (path.splitOn slash) = path := by
  rw [wordText, h.endsWithSlash, if_neg Bool.false_ne_true, List.append_nil,
    List.intercalate_splitOn]

theorem fitsField_of_legal {path : Bytes} (h : Path.LegalPath path) :
    FitsField (namePieces false path) ↔ path.length ≤ fieldSize := by
  rw [namePieces_of_legal h, fitsField_piecesOf fun _ => Text.not_mem_of_mem_splitOn,
    wordText_of_legal h]
  exact ⟨fun ⟨_, hlength, _⟩ => hlength,
    fun hlength => ⟨List.splitOn_ne_nil slash path, hlength, h.no_nul⟩⟩

/-! ## The front part of such a name -/

/-- The front part of a legal path is a legal path with the front of a name behind it, or only
that. -/
theorem front_of_legal_path {path front : Bytes} (h : Path.LegalPath path) (hf : front <+: path) :
    slash ∉ front ∨ ∃ whole last, Path.LegalPath whole ∧ slash ∉ last ∧
      front = whole ++ slash :: last := by
  by_cases hmem : slash ∈ front
  · right
    obtain ⟨after, before, hsplit, hafter⟩ :=
      List.eq_append_cons_of_mem (List.mem_reverse.mpr hmem)
    have hfront : front = before.reverse ++ slash :: after.reverse := by
      rw [← List.reverse_reverse front, hsplit]
      simp
    refine ⟨before.reverse, after.reverse, ?_, by simpa using hafter, hfront⟩
    obtain ⟨rest, rfl⟩ := hf
    intro piece hpiece
    refine h piece ?_
    rw [hfront, List.append_assoc, List.cons_append, List.splitOn_append_cons_self]
    exact List.mem_append_left _ hpiece
  · exact .inl hmem

/-- Words that a front part is recorded as. They make up a front part again. -/
structure FrontWords (front : Bytes) (words : List Bytes) : Prop where
  ne_nil : words ≠ []
  no_slash : ∀ word ∈ words, slash ∉ word
  pieces : namePieces true front = piecesOf front (words.map .ok)
  text : wordText front words <+: front

theorem endsWithSlash_of_not_mem (before : Bytes) {last : Bytes} (hne : last ≠ [])
    (hs : slash ∉ last) : Path.endsWithSlash (before ++ last) = false := by
  rw [Path.endsWithSlash, beq_eq_false_iff_ne, List.getLast?_append_of_ne_nil _ hne]
  intro hlast
  exact hs (List.mem_of_getLast? hlast)

theorem frontWords_of_name {name : Bytes} (hne : name ≠ []) (hs : slash ∉ name) :
    FrontWords name [name] where
  ne_nil := List.cons_ne_nil _ _
  no_slash := by simpa using hs
  pieces := by
    rw [namePieces, Path.components, List.splitOn_eq_singleton hs]
    by_cases hdot : name = [dot]
    · subst hdot
      rfl
    by_cases hparent : name = [dot, dot]
    · subst hparent
      rfl
    simp [hne, hdot, hparent, Path.step?, nameWords]
  text := by
    have hopen : Path.endsWithSlash name = false := endsWithSlash_of_not_mem [] hne hs
    rw [wordText, hopen]
    simp

theorem components_below {whole last : Bytes} (h : Path.LegalPath whole) (hs : slash ∉ last) :
    Path.components (whole ++ slash :: last) =
      (whole.splitOn slash).map .normal ++ (Path.step? last).toList := by
  have hsteps : Path.steps last = (Path.step? last).toList := by
    rw [Path.steps, List.splitOn_eq_singleton hs]
    cases h : Path.step? last <;> simp [h]
  have hfront : Path.front (whole ++ slash :: last) = [] := by
    obtain ⟨first, rest, hw⟩ := List.exists_cons_of_ne_nil (List.splitOn_ne_nil slash whole)
    have hfirst := h first (by rw [hw]; exact List.mem_cons_self)
    rw [Path.front, List.splitOn_append_cons_self, hw, List.cons_append]
    simp only [if_neg hfirst.ne_nil, if_neg hfirst.ne_dot]
  rw [Path.components_eq, hfront, Path.steps_append_slash, Path.steps_of_legal h, hsteps,
    List.nil_append]

theorem namePieces_below {whole last : Bytes} (h : Path.LegalPath whole) (hs : slash ∉ last)
    {words : List Bytes}
    (hwords : ∀ alone, nameWords true alone (Path.step? last).toList = words.map .ok) :
    namePieces true (whole ++ slash :: last) =
      piecesOf (whole ++ slash :: last) ((whole.splitOn slash ++ words).map .ok) := by
  simp only [namePieces, components_below h hs, nameWords_normal, hwords, List.map_append]

theorem frontWords_of_below {whole last : Bytes} (h : Path.LegalPath whole) (hs : slash ∉ last) :
    ∃ words, FrontWords (whole ++ slash :: last) words := by
  have hne : whole.splitOn slash ≠ [] := List.splitOn_ne_nil slash whole
  have hslash : ∀ piece ∈ whole.splitOn slash, slash ∉ piece := fun _ => Text.not_mem_of_mem_splitOn
  by_cases hempty : last = []
  · -- A slash at the end is recorded.
    subst hempty
    refine ⟨whole.splitOn slash ++ [], by simp, by simpa using hslash,
      namePieces_below h hs fun _ => rfl, ?_⟩
    have hclosed : Path.endsWithSlash (whole ++ [slash]) = true := by
      rw [Path.endsWithSlash, List.getLast?_concat, beq_self_eq_true]
    have htext : wordText (whole ++ [slash]) (whole.splitOn slash ++ []) = whole ++ [slash] := by
      rw [wordText, hclosed, if_pos rfl, List.append_nil, List.intercalate_splitOn]
    exact ⟨[], by rw [htext, List.append_nil]⟩
  have hopen : Path.endsWithSlash (whole ++ slash :: last) = false := by
    rw [← List.singleton_append, ← List.append_assoc]
    exact endsWithSlash_of_not_mem _ hempty hs
  by_cases hdot : last = [dot]
  · -- A dot at the end is left out, and the slash in front of it too.
    subst hdot
    refine ⟨whole.splitOn slash ++ [], by simp, by simpa using hslash,
      namePieces_below h hs fun _ => rfl, ?_⟩
    rw [wordText, hopen, if_neg Bool.false_ne_true, List.append_nil, List.append_nil,
      List.intercalate_splitOn]
    exact List.prefix_append _ _
  · refine ⟨whole.splitOn slash ++ [last], by simp, ?_, namePieces_below h hs fun alone => ?_, ?_⟩
    · intro word hmem
      rcases List.mem_append.mp hmem with hmem | hmem
      · exact hslash word hmem
      · rwa [List.mem_singleton.mp hmem]
    · by_cases hparent : last = [dot, dot]
      · subst hparent
        rfl
      · simp [Path.step?, hempty, hdot, hparent, nameWords]
    · have hsplit : (whole ++ slash :: last).splitOn slash = whole.splitOn slash ++ [last] := by
        rw [List.splitOn_append_cons_self, List.splitOn_eq_singleton hs]
      have htext : wordText (whole ++ slash :: last) (whole.splitOn slash ++ [last]) =
          whole ++ slash :: last := by
        rw [wordText, hopen, if_neg Bool.false_ne_true, List.append_nil, ← hsplit,
          List.intercalate_splitOn]
      exact ⟨[], by rw [htext, List.append_nil]⟩

/-- A front part of a legal path that is not empty goes into the field. -/
theorem fitsField_of_front {path front : Bytes} (h : Path.LegalPath path) (hf : front <+: path)
    (hlength : front.length ≤ fieldSize) :
    FitsField (namePieces true front) ↔ front ≠ [] := by
  constructor
  · rintro hfits rfl
    exact hfits.allowed .noComponent List.mem_cons_self
  intro hne
  have hwords : ∃ words, FrontWords front words := by
    rcases front_of_legal_path h hf with hs | ⟨whole, last, hwhole, hs, rfl⟩
    · exact ⟨_, frontWords_of_name hne hs⟩
    · exact frontWords_of_below hwhole hs
  obtain ⟨words, hwords⟩ := hwords
  rw [hwords.pieces, fitsField_piecesOf hwords.no_slash]
  refine ⟨hwords.ne_nil, Nat.le_trans hwords.text.length_le hlength, fun hnul => ?_⟩
  exact h.no_nul (hf.subset (hwords.text.subset hnul))

theorem starts_with_cutName (path : Bytes) : cutName path <+: path :=
  (List.take_prefix _ _).trans (List.take_prefix _ _)

theorem length_cutName_le (path : Bytes) : (cutName path).length ≤ fieldSize := by
  have hle : (cutName path).length ≤ (path.take fieldSize).length :=
    (List.take_prefix _ _).length_le
  rw [List.length_take] at hle
  omega

/-- A legal path can be recorded exactly if the field takes the whole of it or some of it is valid
text. -/
theorem exists_recordName_iff {path : Bytes} (h : Path.LegalPath path) :
    (∃ r, recordName path = .ok r) ↔ path.length ≤ fieldSize ∨ cutName path ≠ [] := by
  have hwhole := fitsField_of_legal h
  have hfront := fitsField_of_front h (starts_with_cutName path) (length_cutName_le path)
  have answer := recordName_answer path
  generalize recordName path = result at answer
  cases answer with
  | short fits => exact iff_of_true ⟨_, rfl⟩ (.inl (hwhole.mp fits))
  | long _ _ front => exact iff_of_true ⟨_, rfl⟩ (.inr (hfront.mp front))
  | refused unfit front =>
    have hlong : ¬path.length ≤ fieldSize := mt hwhole.mpr unfit
    refine iff_of_false (fun ⟨r, hr⟩ => nomatch hr) ?_
    rintro (hle | hcut)
    · exact hlong hle
    · exact front (Nat.le_of_lt (Nat.lt_of_not_le hlong)) (hfront.mpr hcut)

/-! ## Link targets -/

/-- A target goes into its field if what its steps make up is short enough. -/
theorem fitsField_linkPieces_iff {target : Bytes} (hne : target ≠ []) (hnul : 0 ∉ target) :
    FitsField (linkPieces target) ↔ (spelled (linkPieces target)).length ≤ fieldSize := by
  have hcomponents := Path.components_ne_nil hne
  refine ⟨FitsField.short, fun hshort => ⟨fun fault => ?_, hshort, ?_⟩⟩
  · rw [linkPieces, map_linkWord]
    exact error_not_mem_piecesOf (by simpa using hcomponents) fault
  · rw [spelled_linkPieces hcomponents, List.mem_append]
    rintro (hmem | hmem)
    · exact hnul ((Path.spelling_sublist target).subset hmem)
    · split at hmem
      · exact absurd hmem (by decide)
      · cases hmem

/-- A short target that is not empty goes into its field. -/
theorem fitsField_linkPieces {target : Bytes} (hne : target ≠ []) (hnul : 0 ∉ target)
    (hshort : target.length < fieldSize) : FitsField (linkPieces target) := by
  have htail : (if Path.endsWithSlash target then [slash] else []).length ≤ 1 := by
    split <;> decide
  have hlength := (Path.spelling_sublist target).length_le
  rw [fitsField_linkPieces_iff hne hnul, spelled_linkPieces (Path.components_ne_nil hne),
    List.length_append]
  omega

theorem exists_recordLink {target : Bytes} (nameField : Bytes) (hne : target ≠ [])
    (hnul : 0 ∉ target) : ∃ r, recordLink nameField target = .ok r := by
  unfold recordLink
  cases hfill : Field.blank.fill (linkPieces target) with
  | mk f result =>
    cases result with
    | none => exact ⟨_, rfl⟩
    | some fault =>
      by_cases hshort : target.length < fieldSize
      · have hfits := (fitsField_iff _ (rfl : Field.blank.used = 0)).mpr
          (fitsField_linkPieces hne hnul hshort)
        rw [hfill] at hfits
        cases hfits
      · simp only [if_neg hshort]
        exact ⟨_, rfl⟩

end TagRegistry.Tar
