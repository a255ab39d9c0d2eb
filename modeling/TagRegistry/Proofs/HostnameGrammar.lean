import Mathlib.Data.List.TakeWhile
import Mathlib.Data.String.Basic
import TagRegistry.Config.Hostname
import TagRegistry.Proofs.VersionGrammar

/-! The grammar of hostnames.

A hostname is read from what is left of a text without the white space around it, in small letters.
That is a host, or a host with a port behind the last colon. All characters of such a text are
`Settled`: trimming and lowering leave them alone, so that reading a hostname again gives itself.
The reader takes one thing that the grammar does not have, a plus sign in front of a port's
digits. -/

namespace TagRegistry

open Text

/-! ## Trimming -/

/-- What is left of a text without the white space around it. -/
structure Trimmed (cs core : List Char) : Prop where
  around : ∃ before after, cs = before ++ (core ++ after) ∧
    (∀ c ∈ before, isBlank c = true) ∧ ∀ c ∈ after, isBlank c = true
  head : ∀ c ∈ core.head?, isBlank c = false
  last : ∀ c ∈ core.getLast?, isBlank c = false

/-- Nothing is dropped from a text with something visible at its start. -/
theorem dropWhile_isBlank_append {core : List Char} (h : ∀ c ∈ core.head?, isBlank c = false)
    (hne : core ≠ []) (more : List Char) : (core ++ more).dropWhile isBlank = core ++ more := by
  cases core with
  | nil => exact absurd rfl hne
  | cons c core => rw [List.cons_append, List.dropWhile_cons_of_neg (by simp [h c rfl])]

theorem Trimmed.trimBlank_eq {cs core : List Char} (h : Trimmed cs core) : trimBlank cs = core := by
  obtain ⟨before, after, rfl, hbefore, hafter⟩ := h.around
  rw [trimBlank, List.dropWhile_append_of_pos hbefore]
  cases core with
  | nil =>
    have hnothing : after.dropWhile isBlank = [] := List.dropWhile_eq_nil_iff.mpr hafter
    rw [List.nil_append, hnothing]
    rfl
  | cons c core =>
    have hback (b : Char) (hb : b ∈ after.reverse) : isBlank b = true :=
      hafter b (List.mem_reverse.mp hb)
    have hlast : ∀ b ∈ (c :: core).reverse.head?, isBlank b = false := by
      rw [List.head?_reverse]
      exact h.last
    rw [dropWhile_isBlank_append h.head (List.cons_ne_nil _ _), List.reverse_append,
      List.dropWhile_append_of_pos hback, ← List.append_nil (c :: core).reverse,
      dropWhile_isBlank_append hlast (by simp), List.append_nil, List.reverse_reverse]

theorem head?_dropWhile_isBlank (cs : List Char) :
    ∀ c ∈ (cs.dropWhile isBlank).head?, isBlank c = false := by
  intro c hc
  have h := List.head?_dropWhile_not isBlank cs
  rw [Option.mem_def.mp hc] at h
  exact h

/-- Trimming at the end leaves a front part, and drops white space behind it. -/
theorem trimBlank_append (cs : List Char) :
    trimBlank cs ++ ((cs.dropWhile isBlank).reverse.takeWhile isBlank).reverse =
      cs.dropWhile isBlank := by
  rw [trimBlank, ← List.reverse_append, List.takeWhile_append_dropWhile, List.reverse_reverse]

theorem trimmed_trimBlank (cs : List Char) : Trimmed cs (trimBlank cs) where
  around := by
    refine ⟨cs.takeWhile isBlank, ((cs.dropWhile isBlank).reverse.takeWhile isBlank).reverse,
      ?_, fun c hc => ?_, fun c hc => ?_⟩
    · rw [trimBlank_append, List.takeWhile_append_dropWhile]
    · exact List.mem_takeWhile_imp hc
    · exact List.mem_takeWhile_imp (List.mem_reverse.mp hc)
  head c hc := by
    have hfront := head?_dropWhile_isBlank cs
    rw [← trimBlank_append, List.head?_append, Option.mem_def.mp hc] at hfront
    exact hfront c rfl
  last := by
    rw [trimBlank, List.getLast?_reverse]
    exact head?_dropWhile_isBlank _

/-! ## Characters -/

/-- Visible ASCII characters other than capital letters. -/
def Settled (c : Char) : Prop := 33 ≤ c.toNat ∧ c.toNat ≤ 126 ∧ ¬(65 ≤ c.toNat ∧ c.toNat ≤ 90)

instance : DecidablePred Settled := fun _ => inferInstanceAs (Decidable (_ ∧ _ ∧ ¬_))

theorem blankRuns_outside : ∀ run ∈ blankRuns, run.2 < 33 ∨ 126 < run.1 := by decide

theorem Settled.isBlank_eq {c : Char} (h : Settled c) : isBlank c = false := by
  obtain ⟨hlow, hhigh, -⟩ := h
  rw [isBlank, List.any_eq_false]
  intro run hrun
  have houtside := blankRuns_outside run hrun
  simp only [Bool.and_eq_true, decide_eq_true_eq]
  omega

theorem toNat_toLower (c : Char) :
    c.toLower.toNat = if 65 ≤ c.toNat ∧ c.toNat ≤ 90 then c.toNat + 32 else c.toNat := by
  have hcapital : (c.val ≥ 'A'.val ∧ c.val ≤ 'Z'.val) ↔ 65 ≤ c.toNat ∧ c.toNat ≤ 90 := Iff.rfl
  by_cases h : c.val ≥ 'A'.val ∧ c.val ≤ 'Z'.val
  · have hrange := hcapital.mp h
    have hlower : c.toLower.val = c.val + ('a'.val - 'A'.val) := congrArg Char.val (dif_pos h)
    rw [if_pos hrange]
    change c.toLower.val.toNat = _
    rw [hlower, UInt32.toNat_add]
    change (c.toNat + 32) % 2 ^ 32 = _
    omega
  · have hlower : c.toLower = c := dif_neg h
    rw [hlower, if_neg (mt hcapital.mpr h)]

theorem toLower_toLower (c : Char) : c.toLower.toLower = c.toLower := by
  apply Char.toNat_inj.mp
  have h := toNat_toLower c
  have hagain := toNat_toLower c.toLower
  split at h <;> split at hagain <;> omega

theorem Settled.toLower_eq {c : Char} (h : Settled c) : c.toLower = c := by
  apply Char.toNat_inj.mp
  rw [toNat_toLower, if_neg h.2.2]

theorem map_toLower_of_settled {cs : List Char} (h : ∀ c ∈ cs, Settled c) :
    cs.map Char.toLower = cs :=
  (List.map_congr_left fun c hc => (h c hc).toLower_eq).trans cs.map_id

theorem trimmed_of_settled {cs : List Char} (h : ∀ c ∈ cs, Settled c) : Trimmed cs cs where
  around := ⟨[], [], by simp, nofun, nofun⟩
  head c hc := (h c (List.mem_of_mem_head? hc)).isBlank_eq
  last c hc := (h c (List.mem_of_mem_getLast? hc)).isBlank_eq

namespace Hostname

/-! ## The grammar -/

/-- The characters of labels, in small letters. -/
def LabelChar (c : Char) : Prop := ('a' ≤ c ∧ c ≤ 'z') ∨ ('0' ≤ c ∧ c ≤ '9') ∨ c = '-'

instance : DecidablePred LabelChar := fun _ => inferInstanceAs (Decidable (_ ∨ _ ∨ _))

/-- A word of at most 63 characters with no hyphen at its start or end. -/
structure Label (word : List Char) : Prop where
  ne_nil : word ≠ []
  length_le : word.length ≤ 63
  char : ∀ c ∈ word, LabelChar c
  head : word.head? ≠ some '-'
  last : word.getLast? ≠ some '-'

/-- Labels with dots between them. -/
def Host (text : List Char) : Prop := ∃ labels, WordList Label labels ∧ text = dotted labels

/-- A number from 1 to 65535 in decimal digits. -/
structure Port (digits : List Char) : Prop where
  ne_nil : digits ≠ []
  digit : ∀ c ∈ digits, '0' ≤ c ∧ c ≤ '9'
  pos : 1 ≤ Decimal.value digits
  le : Decimal.value digits ≤ 65535

/-- A host alone, or one with a colon and what counts as a port behind it. -/
inductive Written (IsPort : List Char → Prop) (text : List Char) : Prop where
  | alone (host : Host text)
  | withPort {name port : List Char} (host : Host name) (counts : IsPort port)
    (text_eq : text = name ++ ':' :: port)

/-- A port with a plus sign in front. -/
def SignedPort (text : List Char) : Prop := ∃ digits, text = '+' :: digits ∧ Port digits

theorem labelChar_iff {c : Char} (h : c.toLower = c) : isIdentifierChar c = true ↔ LabelChar c := by
  have hcapital : ¬('A' ≤ c ∧ c ≤ 'Z') := by
    intro hrange
    have hnat := toNat_toLower c
    have hbounds : 65 ≤ c.toNat ∧ c.toNat ≤ 90 := hrange
    rw [h, if_pos hbounds] at hnat
    omega
  rw [isIdentifierChar_iff, LabelChar]
  grind

theorem LabelChar.settled {c : Char} (h : LabelChar c) : Settled c := by
  have hrange : (97 ≤ c.toNat ∧ c.toNat ≤ 122) ∨ (48 ≤ c.toNat ∧ c.toNat ≤ 57) ∨ c.toNat = 45 := by
    rcases h with h | h | rfl
    · exact .inl h
    · exact .inr (.inl h)
    · exact .inr (.inr rfl)
  rw [Settled]
  omega

/-! ## Labels -/

theorem utf8Len_of_settled {cs : List Char} (h : ∀ c ∈ cs, Settled c) :
    (String.ofList cs).utf8ByteSize = cs.length := by
  rw [String.utf8ByteSize_ofList]
  induction cs with
  | nil => rfl
  | cons c cs ih =>
    have hone : c.utf8Size = 1 := Char.utf8Size_eq_one_iff.mpr <| by
      have hhigh := (h c List.mem_cons_self).2.1
      rw [UInt32.le_iff_toNat_le]
      change c.toNat ≤ 127
      omega
    rw [String.utf8Len, ih fun d hd => h d (List.mem_cons_of_mem c hd), hone, List.length_cons]

/-- What is asked of a label. -/
theorem labelFault?_checks {word : List Char} : labelFault? word = none ↔
    (String.ofList word).utf8ByteSize ≠ 0 ∧ (String.ofList word).utf8ByteSize ≤ 63 ∧
      word.head? ≠ some '-' ∧ word.getLast? ≠ some '-' ∧ word.all isIdentifierChar = true := by
  unfold labelFault? isIdentifierChar
  grind

/-- Of lowered words, labels are those without a fault. -/
theorem labelFault?_eq_none_iff {word : List Char} (hlower : ∀ c ∈ word, c.toLower = c) :
    labelFault? word = none ↔ Label word := by
  have hchars : word.all isIdentifierChar = true ↔ ∀ c ∈ word, LabelChar c := by
    rw [List.all_eq_true]
    exact forall₂_congr fun c hc => labelChar_iff (hlower c hc)
  have hsize (h : ∀ c ∈ word, LabelChar c) : (String.ofList word).utf8ByteSize = word.length :=
    utf8Len_of_settled fun c hc => (h c hc).settled
  rw [labelFault?_checks, hchars]
  constructor
  · rintro ⟨hpos, hle, hhead, hlast, hall⟩
    rw [hsize hall] at hpos hle
    exact ⟨List.length_pos_iff.mp (Nat.pos_of_ne_zero hpos), hle, hall, hhead, hlast⟩
  · intro h
    rw [hsize h.char]
    exact ⟨Nat.pos_iff_ne_zero.mp (List.length_pos_iff.mpr h.ne_nil), h.length_le, h.head, h.last,
      h.char⟩

theorem Label.not_mem {word : List Char} (h : Label word) {c : Char} (hc : ¬LabelChar c) :
    c ∉ word := fun hmem => hc (h.char c hmem)

/-- The words between the dots of a host are its labels. -/
theorem host_iff {text : List Char} : Host text ↔ ∀ word ∈ text.splitOn '.', Label word := by
  constructor
  · rintro ⟨labels, hlabels, rfl⟩
    have hdot (word : List Char) (hword : Label word) : '.' ∉ word := hword.not_mem (by decide)
    rw [hlabels.splitOn_dotted hdot]
    exact hlabels.2
  · intro h
    exact ⟨text.splitOn '.', ⟨List.splitOn_ne_nil _ _, h⟩, (dotted_splitOn text).symm⟩

instance : DecidablePred Label := fun word =>
  decidable_of_iff (word ≠ [] ∧ word.length ≤ 63 ∧ word.all (LabelChar ·) = true ∧
    word.head? ≠ some '-' ∧ word.getLast? ≠ some '-')
    ⟨fun h => ⟨h.1, h.2.1, by simpa using h.2.2.1, h.2.2.2.1, h.2.2.2.2⟩,
      fun h => ⟨h.ne_nil, h.length_le, by simpa using h.char, h.head, h.last⟩⟩

instance : DecidablePred Host := fun _ => decidable_of_iff _ host_iff.symm

theorem Host.ne_nil {text : List Char} (h : Host text) : text ≠ [] := by
  rintro rfl
  exact (host_iff.mp h [] (by simp)).ne_nil rfl

theorem Host.char {text : List Char} (h : Host text) : ∀ c ∈ text, c = '.' ∨ LabelChar c := by
  obtain ⟨labels, hlabels, rfl⟩ := h
  intro c hc
  rcases mem_of_mem_intercalate hc with rfl | ⟨word, hword, hmem⟩
  · exact .inl rfl
  · exact .inr ((hlabels.2 word hword).char c hmem)

theorem Host.settled {text : List Char} (h : Host text) : ∀ c ∈ text, Settled c := by
  intro c hc
  rcases h.char c hc with rfl | hlabel
  · decide
  · exact hlabel.settled

/-! ## Ports -/

theorem port_iff {digits : List Char} :
    Port digits ↔ ∃ n, Decimal.readBelow? 65536 digits = some n ∧ n ≠ 0 := by
  have hrun : Decimal.isRun digits = true ↔ digits ≠ [] ∧ ∀ c ∈ digits, '0' ≤ c ∧ c ≤ '9' := by
    simp [Decimal.isRun, isDigit_iff_between]
  simp only [Decimal.readBelow?_eq, Option.ite_none_right_eq_some, Option.some.injEq,
    Bool.and_eq_true, hrun, decide_eq_true_eq]
  constructor
  · intro h
    exact ⟨_, ⟨⟨⟨h.ne_nil, h.digit⟩, Nat.lt_succ_of_le h.le⟩, rfl⟩, Nat.pos_iff_ne_zero.mp h.pos⟩
  · rintro ⟨n, ⟨⟨⟨hne, hdigit⟩, hlt⟩, rfl⟩, hpos⟩
    exact ⟨hne, hdigit, Nat.pos_of_ne_zero hpos, Nat.le_of_lt_succ hlt⟩

instance : DecidablePred Port := fun digits =>
  decidable_of_iff (digits ≠ [] ∧ digits.all (fun c => '0' ≤ c ∧ c ≤ '9') = true ∧
    1 ≤ Decimal.value digits ∧ Decimal.value digits ≤ 65535)
    ⟨fun h => ⟨h.1, by simpa using h.2.1, h.2.2.1, h.2.2.2⟩,
      fun h => ⟨h.ne_nil, by simpa using h.digit, h.pos, h.le⟩⟩

theorem Port.settled {digits : List Char} (h : Port digits) : ∀ c ∈ digits, Settled c :=
  fun c hc => LabelChar.settled (.inr (.inl (h.digit c hc)))

/-- The reader leaves out a plus sign in front. -/
theorem isPort_plus (digits : List Char) : isPort ('+' :: digits) = true ↔ Port digits := by
  rw [port_iff]
  simp only [isPort]
  cases Decimal.readBelow? 65536 digits <;> simp

theorem isPort_unsigned {text : List Char} (h : ∀ rest, text ≠ '+' :: rest) :
    isPort text = true ↔ Port text := by
  rw [port_iff]
  simp only [isPort]
  cases Decimal.readBelow? 65536 text <;> simp

theorem isPort_iff {text : List Char} : isPort text = true ↔ Port text ∨ SignedPort text := by
  by_cases hsign : ∃ digits, text = '+' :: digits
  · obtain ⟨digits, rfl⟩ := hsign
    rw [isPort_plus]
    constructor
    · exact fun h => .inr ⟨digits, rfl, h⟩
    · rintro (h | ⟨_, heq, h⟩)
      · exact absurd (h.digit '+' List.mem_cons_self) (by decide)
      · rwa [(List.cons.inj heq).2]
  · have hunsigned (rest : List Char) (heq : text = '+' :: rest) : False := hsign ⟨rest, heq⟩
    rw [isPort_unsigned hunsigned]
    exact ⟨.inl, fun h => h.resolve_right fun ⟨digits, heq, _⟩ => hunsigned digits heq⟩

theorem char_of_isPort {text : List Char} (h : isPort text = true) :
    ∀ c ∈ text, c = '+' ∨ ('0' ≤ c ∧ c ≤ '9') := by
  intro c hc
  rcases isPort_iff.mp h with hport | ⟨digits, rfl, hport⟩
  · exact .inr (hport.digit c hc)
  · exact (List.mem_cons.mp hc).imp_right (hport.digit c)

/-! ## The reader -/

theorem sublist_of_mem_splitOn {text word : List Char} (h : word ∈ text.splitOn '.') :
    word.Sublist text := by
  have hparts : (['.'].intercalate [word]).Sublist (['.'].intercalate (text.splitOn '.')) :=
    intercalate_sublist (List.singleton_sublist.mpr h)
  rwa [List.intercalate_splitOn, List.intercalate_singleton] at hparts

/-- Of lowered texts, hosts are those whose labels have no fault. -/
theorem findSome?_labelFault?_iff {text : List Char} (hlower : ∀ c ∈ text, c.toLower = c) :
    (text.splitOn '.').findSome? labelFault? = none ↔ Host text := by
  rw [List.findSome?_eq_none_iff, host_iff]
  exact forall₂_congr fun word hword =>
    labelFault?_eq_none_iff fun c hc => hlower c ((sublist_of_mem_splitOn hword).subset hc)

/-- Without a colon the labels decide. -/
theorem fault?_of_labels {text : List Char} (hcolon : ':' ∉ text) :
    fault? text = none ↔ (text.splitOn '.').findSome? labelFault? = none := by
  have hcut : cutLast ':' text = none := (cutLast_eq_none_iff ':' text).mpr hcolon
  simp only [fault?, hcut]
  cases text with
  | nil => exact iff_of_false nofun (by decide)
  | cons c text => cases ((c :: text).splitOn '.').findSome? labelFault? <;> simp

/-- The labels in front of the last colon and the port behind it decide. -/
theorem fault?_of_labels_port {name port : List Char} (hcolon : ':' ∉ port) :
    fault? (name ++ ':' :: port) = none ↔
      (name.splitOn '.').findSome? labelFault? = none ∧ isPort port = true := by
  have hcut : cutLast ':' (name ++ ':' :: port) = some (name, port) :=
    (cutLast_eq_some_iff ':' _ name port).mpr ⟨hcolon, rfl⟩
  simp only [fault?, hcut]
  cases name with
  | nil => exact iff_of_false nofun fun h => absurd h.1 (by decide)
  | cons c name => cases ((c :: name).splitOn '.').findSome? labelFault? <;> simp

theorem fault?_alone {text : List Char} (hlower : ∀ c ∈ text, c.toLower = c) (hcolon : ':' ∉ text) :
    fault? text = none ↔ Host text := by
  rw [fault?_of_labels hcolon, findSome?_labelFault?_iff hlower]

theorem fault?_withPort {name port : List Char} (hlower : ∀ c ∈ name, c.toLower = c)
    (hcolon : ':' ∉ port) :
    fault? (name ++ ':' :: port) = none ↔ Host name ∧ isPort port = true := by
  rw [fault?_of_labels_port hcolon, findSome?_labelFault?_iff hlower]

/-- Of lowered texts, those without a fault are the hosts, alone or with what is read as a port. -/
theorem fault?_eq_none_iff {text : List Char} (hlower : ∀ c ∈ text, c.toLower = c) :
    fault? text = none ↔ Written (isPort · = true) text := by
  constructor
  · intro h
    cases hcut : cutLast ':' text with
    | none => exact .alone ((fault?_alone hlower ((cutLast_eq_none_iff ':' text).mp hcut)).mp h)
    | some parts =>
      obtain ⟨name, port⟩ := parts
      obtain ⟨hcolon, rfl⟩ := (cutLast_eq_some_iff ':' text name port).mp hcut
      have hname (c : Char) (hc : c ∈ name) : c.toLower = c := hlower c (List.mem_append_left _ hc)
      obtain ⟨hhost, hport⟩ := (fault?_withPort hname hcolon).mp h
      exact .withPort hhost hport rfl
  · rintro (hhost | ⟨hhost, hport, rfl⟩)
    · have hcolon : ':' ∉ text := fun hmem => absurd (hhost.char ':' hmem) (by decide)
      exact (fault?_alone hlower hcolon).mpr hhost
    · have hname := fun c hc => hlower c (List.mem_append_left _ hc)
      have hcolon : ':' ∉ _ := fun hmem => absurd (char_of_isPort hport ':' hmem) (by decide)
      exact (fault?_withPort hname hcolon).mpr ⟨hhost, hport⟩

theorem Written.settled {text : List Char} (h : Written (isPort · = true) text) :
    ∀ c ∈ text, Settled c := by
  obtain hhost | ⟨hhost, hport, rfl⟩ := h
  · exact hhost.settled
  · intro c hc
    rcases List.mem_append.mp hc with hc | hc
    · exact hhost.settled c hc
    · rcases List.mem_cons.mp hc with rfl | hc
      · decide
      · rcases char_of_isPort hport c hc with rfl | hdigit
        · decide
        · exact LabelChar.settled (.inr (.inl hdigit))

/-! ## Hostnames -/

/-- A host alone, or with a port behind a colon. -/
abbrev Documented (text : List Char) : Prop := Written Port text

/-- A host with a signed port behind a colon. -/
def Signed (text : List Char) : Prop :=
  ∃ name port, text = name ++ ':' :: port ∧ Host name ∧ SignedPort port

theorem written_iff {text : List Char} :
    Written (isPort · = true) text ↔ Documented text ∨ Signed text := by
  constructor
  · rintro (hhost | ⟨hhost, hport, rfl⟩)
    · exact .inl (.alone hhost)
    · rcases isPort_iff.mp hport with hport | hport
      · exact .inl (.withPort hhost hport rfl)
      · exact .inr ⟨_, _, rfl, hhost, hport⟩
  · rintro ((hhost | ⟨hhost, hport, rfl⟩) | ⟨name, port, rfl, hhost, hport⟩)
    · exact .alone hhost
    · exact .withPort hhost (isPort_iff.mpr (.inl hport)) rfl
    · exact .withPort hhost (isPort_iff.mpr (.inr hport)) rfl

/-- The grammar has no plus sign. -/
theorem Signed.not_documented {text : List Char} (h : Signed text) : ¬Documented text := by
  obtain ⟨name, port, rfl, -, digits, rfl, -⟩ := h
  have hmem : '+' ∈ name ++ ':' :: '+' :: digits := by simp
  rintro (hhost | ⟨hhost, hport, heq⟩)
  · exact absurd (hhost.char '+' hmem) (by decide)
  · rw [heq] at hmem
    rcases List.mem_append.mp hmem with hmem | hmem
    · exact absurd (hhost.char '+' hmem) (by decide)
    · rcases List.mem_cons.mp hmem with heq | hmem
      · cases heq
      · exact absurd (hport.digit '+' hmem) (by decide)

theorem parse_eq_ok_iff {raw : String} {h : Hostname} :
    parse raw = .ok h ↔ h.chars = normalize raw := by
  unfold parse
  split
  · next hlegal =>
    rw [Except.ok.injEq]
    constructor
    · rintro rfl
      rfl
    · intro hchars
      obtain ⟨chars, legal⟩ := h
      subst hchars
      rfl
  · next fault hfault =>
    refine iff_of_false nofun fun hchars => ?_
    rw [← hchars, h.legal] at hfault
    cases hfault

theorem exists_parse_iff {raw : String} :
    (∃ h, parse raw = .ok h) ↔ fault? (normalize raw) = none := by
  constructor
  · rintro ⟨h, hparse⟩
    rw [← parse_eq_ok_iff.mp hparse]
    exact h.legal
  · exact fun hlegal => ⟨⟨normalize raw, hlegal⟩, parse_eq_ok_iff.mpr rfl⟩

theorem toLower_of_mem_normalize {raw : String} : ∀ c ∈ normalize raw, c.toLower = c := by
  intro c hc
  obtain ⟨d, -, rfl⟩ := List.mem_map.mp hc
  exact toLower_toLower d

theorem normalize_of_settled {text : List Char} (h : ∀ c ∈ text, Settled c) :
    normalize (String.ofList text) = text := by
  rw [normalize, String.toList_ofList, (trimmed_of_settled h).trimBlank_eq,
    map_toLower_of_settled h]

/-- A hostname is read from a text whose trimmed and lowered form is a host, alone or with a port;
this form is the hostname, and reading it again gives itself. The same is read where the port has a
plus sign in front, and only there is something read that the grammar does not have. -/
theorem parse_documented (raw : String) :
    ∃ core text, Trimmed raw.toList core ∧ text = core.map Char.toLower ∧
      (∀ h, parse raw = .ok h → h.chars = text ∧ parse h.text = .ok h) ∧
      ((∃ h, parse raw = .ok h) ↔ Documented text ∨ Signed text) ∧
      (((∃ h, parse raw = .ok h) ↔ Documented text) ↔ ¬Signed text) := by
  have haccepted : (∃ h, parse raw = .ok h) ↔
      Documented (normalize raw) ∨ Signed (normalize raw) := by
    rw [exists_parse_iff, fault?_eq_none_iff toLower_of_mem_normalize, written_iff]
  refine ⟨trimBlank raw.toList, normalize raw, trimmed_trimBlank _, rfl, fun h hparse => ?_,
    haccepted, ?_⟩
  · have hchars := parse_eq_ok_iff.mp hparse
    have hwritten := (fault?_eq_none_iff toLower_of_mem_normalize).mp
      (exists_parse_iff.mp ⟨h, hparse⟩)
    refine ⟨hchars, parse_eq_ok_iff.mpr ?_⟩
    rw [text, hchars, normalize_of_settled hwritten.settled]
  · rw [haccepted]
    constructor
    · intro hiff hsigned
      exact hsigned.not_documented (hiff.mp (.inr hsigned))
    · exact fun hsigned => or_iff_left hsigned

theorem parse_documented_port :
    Documented "registry.example.com:8443".toList ∧
    ∃ h, parse " Registry.Example.COM:8443\n" = .ok h ∧ h.text = "registry.example.com:8443" ∧
      parse h.text = .ok h := by
  have hdocumented : Documented "registry.example.com:8443".toList := by
    have hhost : Host "registry.example.com".toList := by decide
    have hport : Port "8443".toList := by decide
    exact .withPort hhost hport rfl
  obtain ⟨core, text, htrim, rfl, hread, haccepted, -⟩ :=
    parse_documented " Registry.Example.COM:8443\n"
  have hcore : core = "Registry.Example.COM:8443".toList := htrim.trimBlank_eq.symm.trans (by decide)
  subst hcore
  obtain ⟨h, hparse⟩ := haccepted.mpr (.inl hdocumented)
  obtain ⟨hchars, hagain⟩ := hread h hparse
  exact ⟨hdocumented, h, hparse, congrArg String.ofList hchars, hagain⟩

/-- A port with a plus sign is read, and the sign stays in the hostname. -/
theorem signed_port_accepted :
    Trimmed "localhost:+80".toList "localhost:+80".toList ∧
    "localhost:+80".toList.map Char.toLower = "localhost:+80".toList ∧
    (∃ h, parse "localhost:+80" = .ok h ∧ h.text = "localhost:+80") ∧
    ¬Documented "localhost:+80".toList := by
  have hhost : Host "localhost".toList := by decide
  have hport : Port "80".toList := by decide
  have hwritten : Written (isPort · = true) "localhost:+80".toList :=
    .withPort hhost ((isPort_plus _).mpr hport) rfl
  have hsigned : Signed "localhost:+80".toList := ⟨_, _, rfl, hhost, _, rfl, hport⟩
  have hlower (c : Char) (hc : c ∈ "localhost:+80".toList) : c.toLower = c :=
    (hwritten.settled c hc).toLower_eq
  have hlegal : fault? "localhost:+80".toList = none := (fault?_eq_none_iff hlower).mpr hwritten
  exact ⟨trimmed_of_settled hwritten.settled, map_toLower_of_settled hwritten.settled,
    ⟨⟨_, hlegal⟩, parse_eq_ok_iff.mpr (normalize_of_settled hwritten.settled).symm, rfl⟩,
    hsigned.not_documented⟩

end Hostname

end TagRegistry
