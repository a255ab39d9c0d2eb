import Mathlib.Algebra.Group.Nat.Defs
import TagRegistry.Proofs.VersionText

/-! The grammar of version texts, and the texts that are refused.

A `Spelling` is a derivation: which words stand where. The reader finds the parts of a text by
cutting at the first `+` and then at the first `-`; a derivation lists its parts from the left. The
two agree because no part holds a mark that the reader still looks for: there is no `+` in numerals
and identifiers, and no `-` in numerals. The same cuts, made in a text that has no derivation,
leave a first bad part, and `RefusedAs` says which one that is. -/

namespace TagRegistry

open Text

/-! ## Words -/

/-- A run of ASCII digits with a value that fits a 64-bit word. -/
structure Numeral (word : List Char) : Prop where
  ne_nil : word ≠ []
  digit : ∀ c ∈ word, '0' ≤ c ∧ c ≤ '9'
  value_lt : Decimal.value word < 2 ^ 64

/-- A run of ASCII letters, digits and hyphens. -/
structure Identifier (word : List Char) : Prop where
  ne_nil : word ≠ []
  char : ∀ c ∈ word,
    ('0' ≤ c ∧ c ≤ '9') ∨ ('A' ≤ c ∧ c ≤ 'Z') ∨ ('a' ≤ c ∧ c ≤ 'z') ∨ c = '-'

/-- At least one word, and each of them one of `Word`. -/
def WordList (Word : List Char → Prop) (words : List (List Char)) : Prop :=
  words ≠ [] ∧ ∀ word ∈ words, Word word

/-- Words with dots between them. -/
def dotted (words : List (List Char)) : List Char := ['.'].intercalate words

/-- A part with the mark that introduces it, or nothing. -/
def behind (mark : Char) : Option (List Char) → List Char
  | none => []
  | some text => mark :: text

/-- Texts that are lists of identifiers. -/
def IdentifierText (text : List Char) : Prop :=
  ∃ words, WordList Identifier words ∧ text = dotted words

theorem isDigit_iff_between {c : Char} : c.isDigit = true ↔ '0' ≤ c ∧ c ≤ '9' := by
  simp [Char.isDigit, Char.le_def]

theorem isIdentifierChar_iff {c : Char} : isIdentifierChar c = true ↔
    ('0' ≤ c ∧ c ≤ '9') ∨ ('A' ≤ c ∧ c ≤ 'Z') ∨ ('a' ≤ c ∧ c ≤ 'z') ∨ c = '-' := by
  have hletter : c.isAlpha = (decide ('A'.val ≤ c.val ∧ c.val ≤ 'Z'.val) ||
      decide ('a'.val ≤ c.val) && decide (c.val ≤ 'z'.val)) := rfl
  simp only [isIdentifierChar, Char.isAlphanum, hletter, Bool.or_eq_true, Bool.and_eq_true,
    decide_eq_true_eq, isDigit_iff_between, beq_iff_eq, Char.le_def]
  grind

theorem Numeral.iff {word : List Char} :
    Numeral word ↔ Decimal.isRun word = true ∧ Decimal.value word < Decimal.wordBound := by
  have hrun : Decimal.isRun word = true ↔ word ≠ [] ∧ ∀ c ∈ word, '0' ≤ c ∧ c ≤ '9' := by
    simp [Decimal.isRun, isDigit_iff_between]
  rw [hrun]
  constructor
  · intro h
    exact ⟨⟨h.ne_nil, h.digit⟩, h.value_lt⟩
  · intro h
    exact ⟨h.1.1, h.1.2, h.2⟩

/-- Numerals are the words that are read as a segment. -/
theorem Numeral.word? {word : List Char} (h : Numeral word) :
    Decimal.word? word = some (UInt64.ofNat (Decimal.value word)) := by
  obtain ⟨hrun, hlt⟩ := Numeral.iff.mp h
  simp [Decimal.word?, Decimal.readBelow?_eq, hrun, hlt]

theorem word?_eq_none_of_not_numeral {word : List Char} (h : ¬ Numeral word) :
    Decimal.word? word = none := by
  rw [Numeral.iff, not_and] at h
  simpa [Decimal.word?, Decimal.readBelow?_eq] using h

theorem Numeral.not_mem {word : List Char} (h : Numeral word) {c : Char}
    (hc : c.isDigit = false) : c ∉ word := fun hmem => by
  rw [isDigit_iff_between.mpr (h.digit c hmem)] at hc
  cases hc

theorem Identifier.not_mem {word : List Char} (h : Identifier word) {c : Char}
    (hc : isIdentifierChar c = false) : c ∉ word := fun hmem => by
  rw [isIdentifierChar_iff.mpr (h.char c hmem)] at hc
  cases hc

theorem identifier_iff {word : List Char} :
    Identifier word ↔ word ≠ [] ∧ ∀ c ∈ word, isIdentifierChar c = true := by
  constructor
  · intro h
    exact ⟨h.ne_nil, fun c hc => isIdentifierChar_iff.mpr (h.char c hc)⟩
  · intro h
    exact ⟨h.1, fun c hc => isIdentifierChar_iff.mp (h.2 c hc)⟩

/-! ## Lists of words -/

section Dotted

variable {Word : List Char → Prop} {words : List (List Char)}

theorem WordList.splitOn_dotted (hdot : ∀ word, Word word → '.' ∉ word)
    (h : WordList Word words) : (dotted words).splitOn '.' = words :=
  List.splitOn_intercalate '.' (fun word hword => hdot word (h.2 word hword)) h.1

theorem WordList.not_mem_dotted (h : WordList Word words) {c : Char} (hc : c ≠ '.')
    (hword : ∀ word, Word word → c ∉ word) : c ∉ dotted words := by
  intro hmem
  rcases mem_of_mem_intercalate hmem with rfl | ⟨word, hmem, hcw⟩
  · exact hc rfl
  · exact hword word (h.2 word hmem) hcw

theorem dotted_splitOn (text : List Char) : dotted (text.splitOn '.') = text :=
  List.intercalate_splitOn '.'

end Dotted

theorem Numeral.splitOn_dotted {words : List (List Char)} (h : WordList Numeral words) :
    (dotted words).splitOn '.' = words :=
  h.splitOn_dotted fun _ hword => hword.not_mem (by decide)

theorem Identifier.splitOn_dotted {words : List (List Char)} (h : WordList Identifier words) :
    (dotted words).splitOn '.' = words :=
  h.splitOn_dotted fun _ hword => hword.not_mem (by decide)

theorem isIdentifierList_iff {text : List Char} :
    isIdentifierList text = true ↔ WordList Identifier (text.splitOn '.') := by
  simp [isIdentifierList, WordList, identifier_iff, List.splitOn_ne_nil]

/-- Identifier lists are checked by their definition. -/
theorem identifierText_iff {text : List Char} :
    IdentifierText text ↔ isIdentifierList text = true := by
  rw [isIdentifierList_iff]
  constructor
  · rintro ⟨words, hwords, rfl⟩
    rwa [Identifier.splitOn_dotted hwords]
  · exact fun h => ⟨_, h, (dotted_splitOn text).symm⟩

/-! ## Derivations -/

/-- How a version text is put together. -/
structure Spelling where
  marked : Bool
  numerals : List (List Char)
  prerelease : Option (List (List Char))
  metadata : Option (List (List Char))

namespace Spelling

variable (p : Spelling)

/-- What follows the optional `v`. -/
def body : List Char :=
  dotted p.numerals ++ behind '-' (p.prerelease.map dotted) ++ behind '+' (p.metadata.map dotted)

/-- The text itself. -/
def chars : List Char := if p.marked then 'v' :: p.body else p.body

/-- The words are those of the grammar. -/
structure Legal : Prop where
  numerals : WordList Numeral p.numerals
  prerelease : ∀ words ∈ p.prerelease, WordList Identifier words
  metadata : ∀ words ∈ p.metadata, WordList Identifier words

/-- This is a derivation of `input` in the grammar. -/
structure Spells (input : String) : Prop where
  legal : p.Legal
  chars_eq : p.chars = input.toList

/-- The version holds the numbers, filled up with zeros to three, and the texts of the other parts
as they stand. -/
structure Denotes (v : Version) : Prop where
  segments : v.segments.map UInt64.toNat =
    p.numerals.map Decimal.value ++ List.replicate (3 - p.numerals.length) 0
  prerelease : v.prerelease.map Identifiers.chars = p.prerelease.map dotted
  metadata : v.metadata.map Identifiers.chars = p.metadata.map dotted

end Spelling

/-! ## Cutting a text into parts -/

/-- What follows one `v`, if there is one. -/
def Body (input : String) (body : List Char) : Prop :=
  input.toList = 'v' :: body ∨ input.toList = body ∧ body.head? ≠ some 'v'

/-- The parts of a text: the metadata stands behind the first `+`, the prerelease behind the first
`-` before it. -/
structure Parts (body core : List Char) (prerelease metadata : Option (List Char)) : Prop where
  chars : body = core ++ behind '-' prerelease ++ behind '+' metadata
  minus : '-' ∉ core
  plus : '+' ∉ core ++ behind '-' prerelease

/-- The error that an input is refused with. Parts are checked from the right, and segments from
the left. -/
inductive RefusedAs (input : String) : VersionError → Prop
  | empty (hbody : Body input []) : RefusedAs input .empty
  | metadata {body core text : List Char} {prerelease : Option (List Char)}
    (hbody : Body input body) (hparts : Parts body core prerelease (some text))
    (hbad : ¬ IdentifierText text) : RefusedAs input (.metadata (String.ofList text))
  | prerelease {body core text : List Char} {metadata : Option (List Char)}
    (hbody : Body input body) (hparts : Parts body core (some text) metadata)
    (hmetadata : ∀ text ∈ metadata, IdentifierText text)
    (hbad : ¬ IdentifierText text) : RefusedAs input (.prerelease (String.ofList text))
  | segment {body core bad : List Char} {prerelease metadata : Option (List Char)}
    {good more : List (List Char)}
    (hbody : Body input body) (hne : body ≠ []) (hparts : Parts body core prerelease metadata)
    (hmetadata : ∀ text ∈ metadata, IdentifierText text)
    (hprerelease : ∀ text ∈ prerelease, IdentifierText text)
    (hcore : core = dotted (good ++ bad :: more))
    (hwords : ∀ word ∈ good ++ bad :: more, '.' ∉ word)
    (hgood : ∀ word ∈ good, Numeral word) (hbad : ¬ Numeral bad) :
    RefusedAs input (.segment input (String.ofList bad))

theorem Body.dropMark_eq {input : String} {body : List Char} (h : Body input body) :
    Version.dropMark input.toList = body := by
  rcases h with h | ⟨h, hhead⟩
  · rw [h]
    rfl
  · rw [h]
    unfold Version.dropMark
    split
    · simp at hhead
    · rfl

theorem exists_body (input : String) : ∃ body, Body input body := by
  refine ⟨Version.dropMark input.toList, ?_⟩
  unfold Version.dropMark
  split
  · next rest heq => exact .inl heq
  · next hne =>
    refine .inr ⟨rfl, fun hhead => ?_⟩
    obtain ⟨rest, hrest⟩ := List.head?_eq_some_iff.mp hhead
    exact hne rest hrest

theorem exists_front (mark : Char) (text : List Char) :
    ∃ front part, text = front ++ behind mark part ∧ mark ∉ front := by
  cases hcut : cutFirst mark text with
  | none => exact ⟨text, none, by simp [behind], (cutFirst_eq_none_iff mark text).mp hcut⟩
  | some pair =>
    obtain ⟨hfront, htext⟩ := (cutFirst_eq_some_iff mark text pair.1 pair.2).mp hcut
    exact ⟨pair.1, some pair.2, htext, hfront⟩

theorem exists_parts (body : List Char) : ∃ core prerelease metadata,
    Parts body core prerelease metadata := by
  obtain ⟨rest, metadata, hbody, hplus⟩ := exists_front '+' body
  obtain ⟨core, prerelease, hrest, hminus⟩ := exists_front '-' rest
  exact ⟨core, prerelease, metadata, by rw [hbody, hrest], hminus, hrest ▸ hplus⟩

/-- A mark that is not in the front can be found in one place only. -/
theorem behind_inj {mark : Char} {front front' : List Char} {part part' : Option (List Char)}
    (h : mark ∉ front) (h' : mark ∉ front')
    (heq : front ++ behind mark part = front' ++ behind mark part') :
    front = front' ∧ part = part' := by
  have hcut : ∀ {front part}, mark ∉ front →
      cutFirst mark (front ++ behind mark part) = part.map fun text => (front, text) := by
    intro front part h
    cases part with
    | none => simpa [behind] using (cutFirst_eq_none_iff mark front).mpr h
    | some text => exact (cutFirst_eq_some_iff mark _ front text).mpr ⟨h, rfl⟩
  have hcuts := (hcut h).symm.trans ((congrArg (cutFirst mark) heq).trans (hcut h'))
  cases part <;> cases part' <;> simp_all [behind]

theorem Parts.unique {body core core' : List Char}
    {prerelease prerelease' metadata metadata' : Option (List Char)}
    (h : Parts body core prerelease metadata) (h' : Parts body core' prerelease' metadata') :
    core = core' ∧ prerelease = prerelease' ∧ metadata = metadata' := by
  obtain ⟨hfront, hmetadata⟩ := behind_inj h.plus h'.plus (h.chars.symm.trans h'.chars)
  obtain ⟨hcore, hprerelease⟩ := behind_inj h.minus h'.minus hfront
  exact ⟨hcore, hprerelease, hmetadata⟩

theorem Parts.ne_nil_of_metadata {body core text : List Char} {prerelease : Option (List Char)}
    (h : Parts body core prerelease (some text)) : body ≠ [] := by
  rw [h.chars]
  simp [behind]

theorem Parts.ne_nil_of_prerelease {body core text : List Char} {metadata : Option (List Char)}
    (h : Parts body core (some text) metadata) : body ≠ [] := by
  rw [h.chars]
  simp [behind]

/-! ## Reading the parts -/

namespace Version

/-- Reads the text of a part. -/
def readPart (refuse : String → VersionError) :
    Option (List Char) → Except VersionError (Option Identifiers)
  | none => .ok none
  | some text =>
    match Identifiers.ofChars? text with
    | none => .error (refuse (String.ofList text))
    | some ids => .ok (some ids)

theorem splitPart_behind {mark : Char} {front : List Char} (h : mark ∉ front)
    (refuse : String → VersionError) (part : Option (List Char)) :
    splitPart mark refuse (front ++ behind mark part) =
      (readPart refuse part).map fun ids => (front, ids) := by
  cases part with
  | none =>
    have hcut : cutFirst mark front = none := (cutFirst_eq_none_iff mark front).mpr h
    simp [splitPart, behind, readPart, hcut, Except.map]
  | some text =>
    have hcut : cutFirst mark (front ++ mark :: text) = some (front, text) :=
      (cutFirst_eq_some_iff mark _ front text).mpr ⟨h, rfl⟩
    simp only [splitPart, behind, readPart, hcut]
    cases Identifiers.ofChars? text <;> rfl

theorem readPart_ok (refuse : String → VersionError) {part : Option (List Char)}
    (h : ∀ text ∈ part, IdentifierText text) :
    ∃ ids, readPart refuse part = .ok ids ∧ ids.map Identifiers.chars = part := by
  cases part with
  | none => exact ⟨none, rfl, rfl⟩
  | some text =>
    have hlegal := identifierText_iff.mp (h text rfl)
    exact ⟨some ⟨text, hlegal⟩, by simp [readPart, Identifiers.ofChars?, hlegal], rfl⟩

theorem readPart_error (refuse : String → VersionError) {text : List Char}
    (h : ¬ IdentifierText text) :
    readPart refuse (some text) = .error (refuse (String.ofList text)) := by
  rw [identifierText_iff] at h
  simp [readPart, Identifiers.ofChars?, h]

theorem readSegments_numerals (input : String) {words : List (List Char)}
    (h : ∀ word ∈ words, Numeral word) :
    ∃ segments, readSegments input words = .ok segments ∧
      segments.map UInt64.toNat = words.map Decimal.value := by
  induction words with
  | nil => exact ⟨[], rfl, rfl⟩
  | cons word words ih =>
    obtain ⟨hword, hwords⟩ := List.forall_mem_cons.mp h
    obtain ⟨segments, hread, hvalues⟩ := ih hwords
    refine ⟨UInt64.ofNat (Decimal.value word) :: segments, ?_, ?_⟩
    · simp only [readSegments, hword.word?, hread]
      rfl
    · rw [List.map_cons, List.map_cons, hvalues,
        UInt64.toNat_ofNat_of_lt' (by exact hword.value_lt)]

theorem readSegments_bad (input : String) {good more : List (List Char)} {bad : List Char}
    (hgood : ∀ word ∈ good, Numeral word) (hbad : ¬ Numeral bad) :
    readSegments input (good ++ bad :: more) = .error (.segment input (String.ofList bad)) := by
  induction good with
  | nil => simp [readSegments, word?_eq_none_of_not_numeral hbad]
  | cons word good ih =>
    obtain ⟨hword, hgood⟩ := List.forall_mem_cons.mp hgood
    simp only [List.cons_append, readSegments, hword.word?, ih hgood]
    rfl

/-- Reading is reading the parts, from the right. -/
theorem parse_parts {input : String} {body core : List Char}
    {prerelease metadata : Option (List Char)} (hbody : Body input body) (hne : body ≠ [])
    (hparts : Parts body core prerelease metadata) :
    parse input = (do
      let metadata ← readPart .metadata metadata
      let prerelease ← readPart .prerelease prerelease
      let segments ← readSegments input (core.splitOn '.')
      return ⟨padSegments segments, prerelease, metadata, three_le_padSegments segments⟩) := by
  have hbody' : body.isEmpty = false := by simpa using hne
  simp only [parse, hbody.dropMark_eq, hbody']
  rw [hparts.chars, splitPart_behind hparts.plus]
  cases readPart .metadata metadata with
  | error e => rfl
  | ok ids =>
    simp only [Except.map, bind, Except.bind, splitPart_behind hparts.minus]
    cases readPart .prerelease prerelease with
    | error e => rfl
    | ok ids => rfl

/-- A refused text is refused with this error. -/
theorem parse_of_refused {input : String} {e : VersionError} (h : RefusedAs input e) :
    parse input = .error e := by
  cases h with
  | empty hbody =>
    simp only [parse, hbody.dropMark_eq]
    rfl
  | metadata hbody hparts hbad =>
    rw [parse_parts hbody hparts.ne_nil_of_metadata hparts, readPart_error _ hbad]
    rfl
  | prerelease hbody hparts hmetadata hbad =>
    obtain ⟨ids, hread, -⟩ := readPart_ok .metadata hmetadata
    rw [parse_parts hbody hparts.ne_nil_of_prerelease hparts, hread, readPart_error _ hbad]
    rfl
  | segment hbody hne hparts hmetadata hprerelease hcore hwords hgood hbad =>
    obtain ⟨mids, hmread, -⟩ := readPart_ok .metadata hmetadata
    obtain ⟨pids, hpread, -⟩ := readPart_ok .prerelease hprerelease
    rw [parse_parts hbody hne hparts, hmread, hpread, hcore, dotted,
      List.splitOn_intercalate '.' hwords (by simp)]
    simp only [bind, Except.bind, readSegments_bad input hgood hbad]

end Version

/-! ## Derivations and parts -/

namespace Spelling

variable {p q : Spelling} {input : String}

theorem Legal.body_head (h : p.Legal) : ∃ c, p.body.head? = some c ∧ c.isDigit = true := by
  obtain ⟨hne, hnumeral⟩ := h.numerals
  obtain ⟨word, words, hwords⟩ := List.exists_cons_of_ne_nil hne
  have hword : Numeral word := hnumeral word (hwords ▸ List.mem_cons_self)
  obtain ⟨c, cs, hcs⟩ := List.exists_cons_of_ne_nil hword.ne_nil
  refine ⟨c, ?_, isDigit_iff_between.mpr (hword.digit c (hcs ▸ List.mem_cons_self))⟩
  rw [body, dotted, hwords, hcs]
  cases words with
  | nil => simp
  | cons next words => simp [List.intercalate_cons_cons]

theorem Legal.body_ne_nil (h : p.Legal) : p.body ≠ [] := by
  obtain ⟨c, hc, -⟩ := h.body_head
  intro hnil
  simp [hnil] at hc

theorem Legal.unmarked_head (h : p.Legal) : p.body.head? ≠ some 'v' := by
  obtain ⟨c, hc, hdigit⟩ := h.body_head
  rw [hc]
  rintro ⟨rfl⟩
  cases hdigit

theorem Spells.body (h : p.Spells input) : Body input p.body := by
  rw [Body, ← h.chars_eq, chars]
  cases p.marked with
  | true => exact .inl rfl
  | false => exact .inr ⟨rfl, h.legal.unmarked_head⟩

theorem Legal.parts (h : p.Legal) :
    Parts p.body (dotted p.numerals) (p.prerelease.map dotted) (p.metadata.map dotted) := by
  have hcore : ∀ c : Char, c ≠ '.' → c.isDigit = false → c ∉ dotted p.numerals :=
    fun c hc hdigit => h.numerals.not_mem_dotted hc fun _ hword => hword.not_mem hdigit
  refine ⟨rfl, hcore '-' (by decide) (by decide), ?_⟩
  rw [List.mem_append, not_or]
  refine ⟨hcore '+' (by decide) (by decide), ?_⟩
  cases hpre : p.prerelease with
  | none => simp [behind]
  | some words =>
    have hwords : '+' ∉ dotted words := (h.prerelease words hpre).not_mem_dotted (by decide)
      fun _ hword => hword.not_mem (by decide)
    simp [behind, hwords]

/-- A text in the grammar is read, as the version it denotes. -/
theorem Spells.parse (h : p.Spells input) : ∃ v, Version.parse input = .ok v ∧ p.Denotes v := by
  have htext : ∀ {part : Option (List (List Char))},
      (∀ words ∈ part, WordList Identifier words) →
      ∀ text ∈ part.map dotted, IdentifierText text := by
    intro part hpart text htext
    obtain ⟨words, hwords, rfl⟩ := Option.map_eq_some_iff.mp htext
    exact ⟨words, hpart words hwords, rfl⟩
  obtain ⟨mids, hmread, hmids⟩ := Version.readPart_ok .metadata (htext h.legal.metadata)
  obtain ⟨pids, hpread, hpids⟩ := Version.readPart_ok .prerelease (htext h.legal.prerelease)
  obtain ⟨segments, hsread, hsegments⟩ := Version.readSegments_numerals input h.legal.numerals.2
  refine ⟨⟨Version.padSegments segments, pids, mids, Version.three_le_padSegments segments⟩,
    ?_, ?_, hpids, hmids⟩
  · rw [Version.parse_parts h.body h.legal.body_ne_nil h.legal.parts, hmread, hpread,
      Numeral.splitOn_dotted h.legal.numerals, hsread]
    rfl
  · have hlength : segments.length = p.numerals.length := by
      simpa using congrArg List.length hsegments
    simp [Version.padSegments, hsegments, hlength]

end Spelling

/-- The words of a text are in the grammar, or there is a first that is not. -/
theorem numerals_or_first_bad (words : List (List Char)) :
    (∀ word ∈ words, Numeral word) ∨ ∃ good bad more, words = good ++ bad :: more ∧
      (∀ word ∈ good, Numeral word) ∧ ¬ Numeral bad := by
  induction words with
  | nil => exact .inl (by simp)
  | cons word words ih =>
    by_cases hword : Numeral word
    · rcases ih with hall | ⟨good, bad, more, rfl, hgood, hbad⟩
      · exact .inl (List.forall_mem_cons.mpr ⟨hword, hall⟩)
      · exact .inr ⟨word :: good, bad, more, rfl, List.forall_mem_cons.mpr ⟨hword, hgood⟩, hbad⟩
    · exact .inr ⟨[], word, words, rfl, by simp, hword⟩

/-- A part whose text is a list of identifiers comes from words. -/
theorem exists_words {part : Option (List Char)} (h : ∀ text ∈ part, IdentifierText text) :
    ∃ words : Option (List (List Char)), part = words.map dotted ∧
      ∀ list ∈ words, WordList Identifier list := by
  cases part with
  | none => exact ⟨none, rfl, by simp⟩
  | some text =>
    obtain ⟨words, hwords, rfl⟩ := h text rfl
    exact ⟨some words, rfl, by simpa using hwords⟩

/-- Every text is in the grammar or refused. -/
theorem spelled_or_refused (input : String) :
    (∃ p : Spelling, p.Spells input) ∨ ∃ e, RefusedAs input e := by
  obtain ⟨body, hbody⟩ := exists_body input
  by_cases hne : body = []
  · exact .inr ⟨_, .empty (hne ▸ hbody)⟩
  obtain ⟨core, prerelease, metadata, hparts⟩ := exists_parts body
  by_cases hmetadata : ∀ text ∈ metadata, IdentifierText text
  case neg =>
    obtain ⟨text, rfl, hbad⟩ : ∃ text, metadata = some text ∧ ¬ IdentifierText text := by
      simpa using hmetadata
    exact .inr ⟨_, .metadata hbody hparts hbad⟩
  by_cases hprerelease : ∀ text ∈ prerelease, IdentifierText text
  case neg =>
    obtain ⟨text, rfl, hbad⟩ : ∃ text, prerelease = some text ∧ ¬ IdentifierText text := by
      simpa using hprerelease
    exact .inr ⟨_, .prerelease hbody hparts hmetadata hbad⟩
  rcases numerals_or_first_bad (core.splitOn '.') with hcore | ⟨good, bad, more, hcore, hgood, hbad⟩
  · obtain ⟨pwords, rfl, hpwords⟩ := exists_words hprerelease
    obtain ⟨mwords, rfl, hmwords⟩ := exists_words hmetadata
    have hlegal : ∀ marked, (Spelling.mk marked (core.splitOn '.') pwords mwords).Legal :=
      fun _ => ⟨⟨List.splitOn_ne_nil _ _, hcore⟩, hpwords, hmwords⟩
    have hchars : ∀ marked, (Spelling.mk marked (core.splitOn '.') pwords mwords).body = body := by
      intro marked
      rw [Spelling.body, dotted_splitOn, hparts.chars]
    rcases hbody with hmarked | ⟨hunmarked, -⟩
    · refine .inl ⟨_, hlegal true, ?_⟩
      rw [hmarked, Spelling.chars, hchars, if_pos rfl]
    · refine .inl ⟨_, hlegal false, ?_⟩
      rw [hunmarked, Spelling.chars, hchars, if_neg Bool.false_ne_true]
  · have hdotted : core = dotted (good ++ bad :: more) :=
      (dotted_splitOn core).symm.trans (congrArg dotted hcore)
    have hwords : ∀ word ∈ good ++ bad :: more, '.' ∉ word :=
      fun word hword => not_mem_of_mem_splitOn (hcore ▸ hword)
    exact .inr ⟨_, .segment hbody hne hparts hmetadata hprerelease hdotted hwords hgood hbad⟩

namespace Spelling

variable {p q : Spelling} {input : String}

theorem map_dotted_inj {part part' : Option (List (List Char))}
    (h : ∀ words ∈ part, WordList Identifier words)
    (h' : ∀ words ∈ part', WordList Identifier words)
    (heq : part.map dotted = part'.map dotted) : part = part' := by
  cases part with
  | none => simpa [eq_comm] using heq
  | some words =>
    obtain ⟨words', hwords', hdotted⟩ := Option.map_eq_some_iff.mp heq.symm
    have hsplit := congrArg (List.splitOn '.') hdotted
    rw [Identifier.splitOn_dotted (h' words' hwords'),
      Identifier.splitOn_dotted (h words rfl)] at hsplit
    rw [hwords', hsplit]

/-- A text has one derivation at most. -/
theorem Spells.unique (hp : p.Spells input) (hq : q.Spells input) : p = q := by
  have hbody : p.body = q.body := hp.body.dropMark_eq.symm.trans hq.body.dropMark_eq
  obtain ⟨hcore, hprerelease, hmetadata⟩ := hp.legal.parts.unique (hbody ▸ hq.legal.parts)
  have hnumerals : p.numerals = q.numerals := by
    have hsplit := congrArg (List.splitOn '.') hcore
    rwa [Numeral.splitOn_dotted hp.legal.numerals,
      Numeral.splitOn_dotted hq.legal.numerals] at hsplit
  have hmarked : p.marked = q.marked := by
    have hchars : p.chars = q.chars := hp.chars_eq.trans hq.chars_eq.symm
    -- the mark makes the text one longer
    have hlength := congrArg List.length hchars
    rw [chars, chars, hbody] at hlength
    cases hmp : p.marked <;> cases hmq : q.marked <;> simp [hmp, hmq] at hlength ⊢
  have hpre := map_dotted_inj hp.legal.prerelease hq.legal.prerelease hprerelease
  have hmeta := map_dotted_inj hp.legal.metadata hq.legal.metadata hmetadata
  cases p
  cases q
  simp only [Spelling.mk.injEq] at *
  exact ⟨hmarked, hnumerals, hpre, hmeta⟩

end Spelling

namespace Version

/-- The reader accepts the texts of the grammar and no others. A text has one derivation, and is
read as the version that this denotes; the error for any other text is the one of its first bad
part, in the order in which the parts are checked. -/
theorem parse_grammar (input : String) :
    ((∃ v, parse input = .ok v) ↔ ∃ p : Spelling, p.Spells input) ∧
    (∀ (p : Spelling) (v : Version), p.Spells input → parse input = .ok v → p.Denotes v) ∧
    (∀ p q : Spelling, p.Spells input → q.Spells input → p = q) ∧
    (∀ e, parse input = .error e ↔ RefusedAs input e) := by
  refine ⟨⟨?_, ?_⟩, ?_, fun p q => Spelling.Spells.unique, fun e => ⟨?_, parse_of_refused⟩⟩
  · rintro ⟨v, hv⟩
    rcases spelled_or_refused input with hspelled | ⟨e, he⟩
    · exact hspelled
    · rw [parse_of_refused he] at hv
      cases hv
  · rintro ⟨p, hp⟩
    obtain ⟨v, hv, -⟩ := hp.parse
    exact ⟨v, hv⟩
  · intro p v hp hv
    obtain ⟨w, hw, hdenotes⟩ := hp.parse
    cases hv.symm.trans hw
    exact hdenotes
  · intro he
    rcases spelled_or_refused input with ⟨p, hp⟩ | ⟨e', he'⟩
    · obtain ⟨v, hv, -⟩ := hp.parse
      rw [hv] at he
      cases he
    · cases (parse_of_refused he').symm.trans he
      exact he'

end Version

end TagRegistry
