import Mathlib.Data.List.DropRight
import TagRegistry.Json.Printer
import TagRegistry.Json.Reader

/-! Reading what is printed.

A printed string ends at its closing quote, since every quote inside is escaped, and means the text
that was written. A printed array or object is read item by item; the line ends and the
indentation in between are white space, of which no value begins with any. -/

namespace TagRegistry

/-! ## Digits -/

theorem Text.Hex.read_fixed {n : Nat} (h : n < 0x10000) : read 4 0 (fixed 4 n) = some (n, []) := by
  have hvalue : (((n / 16 / 16 / 16 % 16 * 16 + n / 16 / 16 % 16) * 16 + n / 16 % 16) * 16 +
      n % 16) = n := by omega
  simp [fixed, read, value?_digit, hvalue]

namespace Json

open Text

theorem fixed_four (n : Nat) : Hex.fixed 4 n =
    [Hex.digit (n / 16 / 16 / 16), Hex.digit (n / 16 / 16), Hex.digit (n / 16), Hex.digit n] := rfl

theorem digit_ne (n : Nat) {c : Char} (h : Hex.value? c = none) : Hex.digit n ≠ c := by
  intro heq
  have hvalue := Hex.value?_digit n
  rw [heq, h] at hvalue
  cases hvalue

/-! ## Strings -/

/-- How a character is written: as a letter after a backslash, as its number, or as itself. -/
inductive WrittenAs (c : Char) : List Char → Prop where
  | letter {letter : Char} (means : letterOf? letter = some c) : WrittenAs c ['\\', letter]
  | number (control : c < ' ') : WrittenAs c ('\\' :: 'u' :: Hex.fixed 4 c.toNat)
  | itself (quote : c ≠ '"') (backslash : c ≠ '\\') (printable : ¬c < ' ') : WrittenAs c [c]

theorem writtenAs_escapeChar (c : Char) : WrittenAs c (escapeChar c) := by
  unfold escapeChar
  split
  · next h => exact .letter (congrArg some h.symm)
  split
  · next h => exact .letter (congrArg some h.symm)
  split
  · next h => exact .letter (congrArg some h.symm)
  split
  · next h => exact .letter (congrArg some h.symm)
  split
  · next h => exact .letter (congrArg some h.symm)
  split
  · next h => exact .letter (congrArg some h.symm)
  split
  · next h => exact .letter (congrArg some h.symm)
  split
  · next hcontrol => exact .number hcontrol
  · next hquote hbackslash _ _ _ _ _ hcontrol => exact .itself hquote hbackslash hcontrol

theorem pieces?_written {c : Char} {written : List Char} (h : WrittenAs c written)
    (rest : List Char) : pieces? (written ++ rest) = (pieces? rest).map (.char c :: ·) := by
  cases h with
  | @letter letter means =>
    have hne : letter ≠ 'u' := by
      intro h
      rw [h] at means
      cases means
    rw [List.cons_append, List.singleton_append, pieces?]
    · rw [means]
      cases pieces? rest <;> rfl
    · intro _ _ _ _ _ h
      exact absurd h hne
  | number control =>
    have hcode : c.toNat < 32 := control
    have hpiece : pieceOf c.toNat = .char c := by
      rw [pieceOf, if_pos (by omega), Char.ofNat_toNat]
    have hread := Hex.read_fixed (n := c.toNat) (by omega)
    rw [fixed_four] at hread ⊢
    simp only [List.cons_append, List.nil_append, pieces?, hread]
    rw [← hpiece]
    cases pieces? rest <;> rfl
  | itself quote backslash printable =>
    rw [List.singleton_append]
    simp [pieces?, quote, backslash, printable]

theorem pieces?_escape (text : List Char) : pieces? (escape text) = some (text.map .char) := by
  induction text with
  | nil => rfl
  | cons c text ih =>
    rw [escape, List.flatMap_cons, ← escape, pieces?_written (writtenAs_escapeChar c), ih]
    rfl

theorem joinHalves?_map_char (text : List Char) : joinHalves? (text.map .char) = some text := by
  induction text with
  | nil => rfl
  | cons c text ih =>
    rw [List.map_cons, joinHalves?, ih]
    rfl

/-- A written text means itself. -/
@[simp]
theorem unescape?_escape (text : List Char) : unescape? (escape text) = some text := by
  rw [unescape?, pieces?_escape, Option.bind_some, joinHalves?_map_char]

example : escape ['"', '\n', '\x01', 'é'] =
    ['\\', '"', '\\', 'n', '\\', 'u', '0', '0', '0', '1', 'é'] := by decide

theorem stringRest_cons {c : Char} (hquote : c ≠ '"') (hbackslash : c ≠ '\\')
    (rest : List Char) : stringRest (c :: rest) =
      (stringRest rest).map fun (written, rest) => (c :: written, rest) := by
  rw [stringRest]
  · exact hquote
  · intro _ _ h
    exact absurd h hbackslash

theorem stringRest_written {c : Char} {written : List Char} (h : WrittenAs c written)
    (rest : List Char) : stringRest (written ++ rest) =
      (stringRest rest).map fun (further, rest) => (written ++ further, rest) := by
  cases h with
  | @letter letter means => rfl
  | number control =>
    have hdigit (n : Nat) := stringRest_cons (digit_ne n (c := '"') rfl) (digit_ne n rfl)
    rw [fixed_four]
    simp only [List.cons_append, List.nil_append, stringRest, hdigit]
    cases stringRest rest <;> rfl
  | itself quote backslash printable => exact stringRest_cons quote backslash rest

/-- A written string that is read up to the quote after it. -/
def Sealed (written : List Char) : Prop :=
  ∀ rest, legalString (written ++ '"' :: rest) = some (written, rest)

theorem sealed_escape (text : List Char) : Sealed (escape text) := by
  intro rest
  have hrest : stringRest (escape text ++ '"' :: rest) = some (escape text, rest) := by
    induction text with
    | nil => simp [escape, stringRest]
    | cons c text ih =>
      rw [escape, List.flatMap_cons, ← escape, List.append_assoc, 
        stringRest_written (writtenAs_escapeChar c), ih]
      rfl
  rw [legalString, hrest]
  simp [pieces?_escape]

/-! ## White space -/

theorem skipBlank_skipBlank (cs : List Char) : skipBlank (skipBlank cs) = skipBlank cs :=
  List.dropWhile_idempotent _ cs

theorem skipBlank_newLine (depth : Nat) (cs : List Char) :
    skipBlank (newLine depth ++ cs) = skipBlank cs := by
  refine List.dropWhile_append_of_pos ?_
  intro c hc
  rcases List.mem_cons.mp hc with rfl | hc
  · rfl
  · rw [List.eq_of_mem_replicate hc]
    rfl

theorem value_skipBlank (fuel : Nat) (cs : List Char) :
    value fuel (skipBlank cs) = value fuel cs := by
  cases fuel with
  | zero => rfl
  | succ fuel => rw [value, value, skipBlank_skipBlank]

theorem itemsRest_skipBlank (fuel : Nat) (cs : List Char) :
    itemsRest fuel (skipBlank cs) = itemsRest fuel cs := by
  cases fuel with
  | zero => rfl
  | succ fuel => rw [itemsRest, itemsRest, value_skipBlank]

theorem fieldsRest_skipBlank (fuel : Nat) (cs : List Char) :
    fieldsRest fuel (skipBlank cs) = fieldsRest fuel cs := by
  cases fuel with
  | zero => rfl
  | succ fuel => rw [fieldsRest, fieldsRest, skipBlank_skipBlank]

/-! ## One step of the reader -/

section

variable {fuel : Nat} {cs after rest : List Char}

theorem value_string (fuel : Nat) (rest : List Char) : value (fuel + 1) ('"' :: rest) =
    (legalString rest).map fun (written, rest) => (.string written, rest) := by
  rw [value]
  rfl

theorem value_close (fuel : Nat) (rest : List Char) : value fuel (']' :: rest) = none := by
  cases fuel with
  | zero => rfl
  | succ fuel =>
    rw [value]
    rfl

theorem value_emptyArray (fuel : Nat) (rest : List Char) :
    value (fuel + 1) ('[' :: ']' :: rest) = some (.array [], rest) := by
  rw [value]
  rfl

theorem value_array {items : List Value} (h : itemsRest fuel cs = some (items, rest)) :
    value (fuel + 1) ('[' :: cs) = some (.array items, rest) := by
  have hopening : skipBlank ('[' :: cs) = '[' :: cs := rfl
  simp only [value, hopening]
  split
  · next rest' hclose =>
    rw [← itemsRest_skipBlank, hclose] at h
    cases fuel with
    | zero => cases h
    | succ fuel =>
      rw [itemsRest, value_close] at h
      cases h
  · next rest' hopen =>
    rw [itemsRest_skipBlank, h]
    rfl

theorem value_emptyObject (fuel : Nat) (rest : List Char) :
    value (fuel + 1) ('\x7b' :: '\x7d' :: rest) = some (.object [], rest) := by
  rw [value]
  rfl

theorem value_object {fields : List (List Char × Value)}
    (h : fieldsRest fuel cs = some (fields, rest)) :
    value (fuel + 1) ('\x7b' :: cs) = some (.object fields, rest) := by
  have hopening : skipBlank ('\x7b' :: cs) = '\x7b' :: cs := rfl
  simp only [value, hopening]
  split
  · next rest' hclose =>
    rw [← fieldsRest_skipBlank, hclose] at h
    cases fuel with
    | zero => cases h
    | succ fuel =>
      rw [fieldsRest] at h
      cases h
  · next rest' hopen =>
    rw [fieldsRest_skipBlank, h]
    rfl

theorem itemsRest_last {item : Value} (hitem : value fuel cs = some (item, after))
    (hclose : skipBlank after = ']' :: rest) :
    itemsRest (fuel + 1) cs = some ([item], rest) := by
  rw [itemsRest, hitem]
  simp only [Option.bind_eq_bind, Option.bind_some, hclose]
  rfl

theorem itemsRest_comma {item : Value} {items : List Value} {more : List Char}
    (hitem : value fuel cs = some (item, after)) (hcomma : skipBlank after = ',' :: more)
    (hmore : itemsRest fuel more = some (items, rest)) :
    itemsRest (fuel + 1) cs = some (item :: items, rest) := by
  rw [itemsRest, hitem]
  simp only [Option.bind_eq_bind, Option.bind_some, hcomma, hmore]
  rfl

theorem fieldsRest_last {name colon : List Char} {v : Value}
    (hname : legalString cs = some (name, ':' :: colon))
    (hvalue : value fuel colon = some (v, after)) (hclose : skipBlank after = '\x7d' :: rest) :
    fieldsRest (fuel + 1) ('"' :: cs) = some ([(name, v)], rest) := by
  rw [fieldsRest]
  show (legalString cs >>= fun _ => _) = _
  rw [hname]
  show (value fuel colon >>= fun _ => _) = _
  rw [hvalue]
  simp only [Option.bind_eq_bind, Option.bind_some, hclose]
  rfl

theorem fieldsRest_comma {name colon more : List Char} {v : Value}
    {fields : List (List Char × Value)} (hname : legalString cs = some (name, ':' :: colon))
    (hvalue : value fuel colon = some (v, after)) (hcomma : skipBlank after = ',' :: more)
    (hmore : fieldsRest fuel more = some (fields, rest)) :
    fieldsRest (fuel + 1) ('"' :: cs) = some ((name, v) :: fields, rest) := by
  rw [fieldsRest]
  show (legalString cs >>= fun _ => _) = _
  rw [hname]
  show (value fuel colon >>= fun _ => _) = _
  rw [hvalue]
  simp only [Option.bind_eq_bind, Option.bind_some, hcomma, hmore]
  rfl

end

/-! ## Values -/

/-- A value whose strings are legal, without numbers. -/
inductive Value.Legal : Value → Prop where
  | null : Legal .null
  | bool (b : Bool) : Legal (.bool b)
  | string {written : List Char} (legal : Sealed written) : Legal (.string written)
  | array {items : List Value} (legal : ∀ item ∈ items, Legal item) : Legal (.array items)
  | object {fields : List (List Char × Value)} (names : ∀ field ∈ fields, Sealed field.1)
      (values : ∀ field ∈ fields, Legal field.2) : Legal (.object fields)

/-- A value is read at any depth, whatever comes after it. -/
def ReadsBack (v : Value) : Prop :=
  ∀ depth fuel rest, 2 * (pretty depth v).length ≤ fuel →
    value fuel (pretty depth v ++ rest) = some (v, rest)

theorem ReadsBack.value_eq {v : Value} (h : ReadsBack v) (depth : Nat) {fuel : Nat}
    {cs rest : List Char} (hcs : skipBlank cs = skipBlank (pretty depth v ++ rest))
    (hfuel : 2 * (pretty depth v).length ≤ fuel) : value fuel cs = some (v, rest) := by
  rw [← value_skipBlank, hcs, value_skipBlank]
  exact h depth fuel rest hfuel

theorem itemsRest_prettyItems {items : List Value} (hne : items ≠ [])
    (h : ∀ item ∈ items, ReadsBack item) (depth fuel : Nat) (rest : List Char)
    (hfuel : 2 * (prettyItems depth true items).length ≤ fuel) :
    itemsRest fuel (prettyItems depth true items ++ ']' :: rest) = some (items, rest) := by
  induction items generalizing fuel with
  | nil => exact absurd rfl hne
  | cons item items ih =>
    have hlength : (prettyItems depth true (item :: items)).length =
        (newLine (depth + 1)).length + (pretty (depth + 1) item).length +
          (prettyItems depth false items).length := by
      simp only [prettyItems, List.length_append, List.length_nil, if_true]
      omega
    have hline : 0 < (newLine (depth + 1)).length := Nat.succ_pos _
    obtain ⟨fuel, rfl⟩ : ∃ below, fuel = below + 1 := ⟨fuel - 1, by omega⟩
    have hitem : value fuel (prettyItems depth true (item :: items) ++ ']' :: rest) =
        some (item, prettyItems depth false items ++ ']' :: rest) := by
      refine (h item List.mem_cons_self).value_eq (depth + 1) ?_ (by omega)
      show skipBlank (newLine (depth + 1) ++ pretty (depth + 1) item ++ _ ++ _) = _
      rw [List.append_assoc, List.append_assoc, skipBlank_newLine]
    cases items with
    | nil => exact itemsRest_last hitem (skipBlank_newLine depth _)
    | cons second items =>
      have hcomma : prettyItems depth false (second :: items) =
          ',' :: prettyItems depth true (second :: items) := rfl
      rw [hcomma, List.length_cons] at hlength
      exact itemsRest_comma hitem rfl (ih (List.cons_ne_nil _ _)
        (fun other hother => h other (List.mem_cons_of_mem item hother)) fuel (by omega))

theorem fieldsRest_prettyFields {fields : List (List Char × Value)} (hne : fields ≠ [])
    (hnames : ∀ field ∈ fields, Sealed field.1) (h : ∀ field ∈ fields, ReadsBack field.2)
    (depth fuel : Nat) (rest : List Char)
    (hfuel : 2 * (prettyFields depth true fields).length ≤ fuel) :
    fieldsRest fuel (prettyFields depth true fields ++ '\x7d' :: rest) = some (fields, rest) := by
  induction fields generalizing fuel with
  | nil => exact absurd rfl hne
  | cons field fields ih =>
    obtain ⟨name, v⟩ := field
    have hlength : (prettyFields depth true ((name, v) :: fields)).length =
        (newLine (depth + 1)).length + (quoted name).length + 2 + (pretty (depth + 1) v).length +
          (prettyFields depth false fields).length := by
      simp only [prettyFields, List.length_append, List.length_cons, List.length_nil, if_true]
      omega
    obtain ⟨fuel, rfl⟩ : ∃ below, fuel = below + 1 := ⟨fuel - 1, by omega⟩
    have hname := hnames (name, v) List.mem_cons_self (':' :: ' ' :: (pretty (depth + 1) v ++
      (prettyFields depth false fields ++ '\x7d' :: rest)))
    have hv : ReadsBack v := h (name, v) List.mem_cons_self
    have hvalue : value fuel (' ' :: (pretty (depth + 1) v ++
        (prettyFields depth false fields ++ '\x7d' :: rest))) =
          some (v, prettyFields depth false fields ++ '\x7d' :: rest) :=
      hv.value_eq (depth + 1) rfl (by omega)
    have hprinted : skipBlank (prettyFields depth true ((name, v) :: fields) ++ '\x7d' :: rest) =
        '"' :: (name ++ '"' :: ':' :: ' ' :: (pretty (depth + 1) v ++
          (prettyFields depth false fields ++ '\x7d' :: rest))) := by
      simp only [prettyFields, quoted, List.append_assoc, List.cons_append, List.nil_append,
        if_true, skipBlank_newLine]
      rfl
    rw [← fieldsRest_skipBlank, hprinted]
    cases fields with
    | nil => exact fieldsRest_last hname hvalue (skipBlank_newLine depth _)
    | cons second fields =>
      have hcomma : prettyFields depth false (second :: fields) =
          ',' :: prettyFields depth true (second :: fields) := rfl
      rw [hcomma, List.length_cons] at hlength
      exact fieldsRest_comma hname hvalue rfl (ih (List.cons_ne_nil _ _)
        (fun other hother => hnames other (List.mem_cons_of_mem _ hother))
        (fun other hother => h other (List.mem_cons_of_mem _ hother)) fuel (by omega))

theorem length_pretty_pos {v : Value} (h : v.Legal) (depth : Nat) :
    0 < (pretty depth v).length := by
  cases h with
  | bool b => cases b <;> exact Nat.succ_pos _
  | null | string | array | object => exact Nat.succ_pos _

theorem readsBack_of_step {v : Value} (hv : v.Legal)
    (h : ∀ depth fuel rest, 2 * (pretty depth v).length ≤ fuel + 1 →
      value (fuel + 1) (pretty depth v ++ rest) = some (v, rest)) : ReadsBack v := by
  intro depth fuel rest hfuel
  have hpos := length_pretty_pos hv depth
  obtain ⟨fuel, rfl⟩ : ∃ below, fuel = below + 1 := ⟨fuel - 1, by omega⟩
  exact h depth fuel rest hfuel

/-- A value is read back, since the values in it are. -/
theorem Value.Legal.readsBack {v : Value} (h : v.Legal) : ReadsBack v := by
  induction h with
  | null =>
    refine readsBack_of_step .null fun depth fuel rest _ => ?_
    rw [value]
    rfl
  | bool b =>
    refine readsBack_of_step (.bool b) fun depth fuel rest _ => ?_
    rw [value]
    cases b <;> rfl
  | @string written legal =>
    refine readsBack_of_step (.string legal) fun depth fuel rest _ => ?_
    have hquoted : pretty depth (.string written) ++ rest = '"' :: (written ++ '"' :: rest) := by
      simp [pretty, quoted]
    rw [hquoted, value_string, legal rest]
    rfl
  | @array items legal ih =>
    refine readsBack_of_step (.array legal) fun depth fuel rest hfuel => ?_
    by_cases hne : items = []
    · rw [hne]
      exact value_emptyArray fuel rest
    · have hprinted : pretty depth (.array items) ++ rest =
          '[' :: (prettyItems depth true items ++ ']' :: rest) := by
        simp [pretty]
      have hlength : (pretty depth (.array items)).length =
          (prettyItems depth true items).length + 2 := by
        simp [pretty]
      rw [hprinted]
      exact value_array (itemsRest_prettyItems hne ih depth fuel rest (by omega))
  | @object fields names values ih =>
    refine readsBack_of_step (.object names values) fun depth fuel rest hfuel => ?_
    by_cases hne : fields = []
    · rw [hne]
      exact value_emptyObject fuel rest
    · have hprinted : pretty depth (.object fields) ++ rest =
          '\x7b' :: (prettyFields depth true fields ++ '\x7d' :: rest) := by
        simp [pretty]
      have hlength : (pretty depth (.object fields)).length =
          (prettyFields depth true fields).length + 2 := by
        simp [pretty]
      rw [hprinted]
      exact value_object (fieldsRest_prettyFields hne names ih depth fuel rest (by omega))

/-- What is printed is read back. -/
theorem read?_render {v : Value} (h : v.Legal) : read? v.render = some v := by
  have hread := h.readsBack 0 (2 * (pretty 0 v).length + 2) [] (Nat.le_add_right _ 2)
  rw [List.append_nil] at hread
  rw [read?, Value.render, String.toList_ofList]
  simp only [hread]
  rfl

end Json

end TagRegistry
