import TagRegistry.Proofs.NameOrder
import TagRegistry.Proofs.RequestText

/-! Every text is read back from its octets.

The first octet of a character says how many come after it and holds its upper bits; each of the
others holds six more. What the narrowed ranges of the second octet keep out is never written. -/

namespace TagRegistry.Utf8

variable {b : UInt8} {bs : Bytes} {p : Partial}

/-! ## Octet by octet -/

theorem lead_of_two (hlow : 0xC2 ≤ b.toNat) (hhigh : b.toNat < 0xE0) :
    lead b = .start ⟨b.toNat % 0x20, 1, 0x80, 0xBF⟩ := by
  simp only [lead, UInt8.lt_iff_toNat_lt, UInt8.reduceToNat]
  rw [if_neg (by omega), if_neg (by omega), if_pos (by omega)]

theorem lead_of_three (hlow : 0xE0 ≤ b.toNat) (hhigh : b.toNat < 0xF0) :
    lead b = .start ⟨b.toNat % 0x10, 2, if b = 0xE0 then 0xA0 else 0x80,
      if b = 0xED then 0x9F else 0xBF⟩ := by
  simp only [lead, UInt8.lt_iff_toNat_lt, UInt8.reduceToNat]
  rw [if_neg (by omega), if_neg (by omega), if_neg (by omega), if_pos (by omega)]

theorem lead_of_four (hlow : 0xF0 ≤ b.toNat) (hhigh : b.toNat < 0xF5) :
    lead b = .start ⟨b.toNat % 0x08, 3, if b = 0xF0 then 0x90 else 0x80,
      if b = 0xF4 then 0x8F else 0xBF⟩ := by
  simp only [lead, UInt8.lt_iff_toNat_lt, UInt8.reduceToNat]
  rw [if_neg (by omega), if_neg (by omega), if_neg (by omega), if_neg (by omega),
    if_pos (by omega)]

theorem scanFrom_start (h : lead b = .start p) :
    scanFrom none (b :: bs) = scanFrom (some p) bs := by
  rw [scanFrom, h]

theorem scanFrom_next {bits missing : Nat} {low high : UInt8}
    (h : Partial.Accepts ⟨bits, missing + 2, low, high⟩ b) :
    scanFrom (some ⟨bits, missing + 2, low, high⟩) (b :: bs) =
      scanFrom (some ⟨bits * 0x40 + b.toNat % 0x40, missing + 1, 0x80, 0xBF⟩) bs := by
  rw [scanFrom]
  simp only [decide_eq_true h.1, decide_eq_true h.2, Bool.and_self, if_true]
  rw [if_neg (by omega)]
  rfl

theorem scanFrom_last {bits : Nat} {low high : UInt8}
    (h : Partial.Accepts ⟨bits, 1, low, high⟩ b) :
    scanFrom (some ⟨bits, 1, low, high⟩) (b :: bs) =
      some (Char.ofNat (bits * 0x40 + b.toNat % 0x40)) :: scanFrom none bs := by
  rw [scanFrom]
  simp only [decide_eq_true h.1, decide_eq_true h.2, Bool.and_self, if_true]
  rfl

/-! ## Characters -/

/-- An octet that continues a character, with six of its bits. -/
def continuation (n : Nat) : UInt8 := UInt8.ofNat (n % 64 + 128)

theorem toNat_continuation (n : Nat) : (continuation n).toNat = n % 64 + 128 := by
  rw [continuation, UInt8.toNat_ofNat']
  omega

theorem accepts_continuation (n bits missing : Nat) :
    Partial.Accepts ⟨bits, missing, 0x80, 0xBF⟩ (continuation n) := by
  rw [Partial.Accepts, UInt8.le_iff_toNat_le, UInt8.le_iff_toNat_le, toNat_continuation]
  simp only [UInt8.reduceToNat]
  omega

theorem scan_two (bs : Bytes) {n : Nat} (hlow : 0x80 ≤ n) (hhigh : n < 0x800) :
    scanFrom none (UInt8.ofNat (n / 64 % 32 + 192) :: continuation n :: bs) =
      some (Char.ofNat n) :: scanFrom none bs := by
  have hlead : (UInt8.ofNat (n / 64 % 32 + 192)).toNat = n / 64 + 192 := by
    rw [UInt8.toNat_ofNat']
    omega
  rw [scanFrom_start (lead_of_two (by omega) (by omega)),
    scanFrom_last (accepts_continuation ..), toNat_continuation, hlead,
    show (n / 64 + 192) % 0x20 * 0x40 + (n % 64 + 128) % 0x40 = n by omega]

/-- The second of three octets is in the range that the first one leaves: the number is not below
0x800, and none of a surrogate. -/
theorem scan_three (bs : Bytes) {n : Nat} (hlow : 0x800 ≤ n) (hhigh : n < 0x10000)
    (hvalid : n < 0xD800 ∨ 0xDFFF < n) :
    scanFrom none (UInt8.ofNat (n / 4096 % 16 + 224) :: continuation (n / 64) ::
      continuation n :: bs) = some (Char.ofNat n) :: scanFrom none bs := by
  generalize hb : UInt8.ofNat (n / 4096 % 16 + 224) = b
  have hlead : b.toNat = n / 4096 + 224 := by
    rw [← hb, UInt8.toNat_ofNat']
    omega
  have haccepts : Partial.Accepts ⟨b.toNat % 0x10, 2, if b = 0xE0 then 0xA0 else 0x80,
      if b = 0xED then 0x9F else 0xBF⟩ (continuation (n / 64)) := by
    rw [Partial.Accepts, UInt8.le_iff_toNat_le, UInt8.le_iff_toNat_le, toNat_continuation]
    simp only [← UInt8.toNat_inj, hlead, UInt8.reduceToNat]
    split <;> split <;> simp only [UInt8.reduceToNat] <;> omega
  rw [scanFrom_start (lead_of_three (by omega) (by omega)), scanFrom_next haccepts,
    scanFrom_last (accepts_continuation ..), toNat_continuation, toNat_continuation, hlead,
    show ((n / 4096 + 224) % 0x10 * 0x40 + (n / 64 % 64 + 128) % 0x40) * 0x40 +
      (n % 64 + 128) % 0x40 = n by omega]

/-- So is the second of four: the number is neither below 0x10000 nor above 0x10FFFF. -/
theorem scan_four (bs : Bytes) {n : Nat} (hlow : 0x10000 ≤ n) (hhigh : n < 0x110000) :
    scanFrom none (UInt8.ofNat (n / 262144 % 8 + 240) :: continuation (n / 4096) ::
      continuation (n / 64) :: continuation n :: bs) =
        some (Char.ofNat n) :: scanFrom none bs := by
  generalize hb : UInt8.ofNat (n / 262144 % 8 + 240) = b
  have hlead : b.toNat = n / 262144 + 240 := by
    rw [← hb, UInt8.toNat_ofNat']
    omega
  have haccepts : Partial.Accepts ⟨b.toNat % 0x08, 3, if b = 0xF0 then 0x90 else 0x80,
      if b = 0xF4 then 0x8F else 0xBF⟩ (continuation (n / 4096)) := by
    rw [Partial.Accepts, UInt8.le_iff_toNat_le, UInt8.le_iff_toNat_le, toNat_continuation]
    simp only [← UInt8.toNat_inj, hlead, UInt8.reduceToNat]
    split <;> split <;> simp only [UInt8.reduceToNat] <;> omega
  rw [scanFrom_start (lead_of_four (by omega) (by omega)), scanFrom_next haccepts,
    scanFrom_next (accepts_continuation ..), scanFrom_last (accepts_continuation ..),
    toNat_continuation, toNat_continuation, toNat_continuation, hlead,
    show (((n / 262144 + 240) % 0x08 * 0x40 + (n / 4096 % 64 + 128) % 0x40) * 0x40 +
      (n / 64 % 64 + 128) % 0x40) * 0x40 + (n % 64 + 128) % 0x40 = n by omega]

theorem scan_encodeChar (c : Char) (bs : Bytes) :
    scanFrom none (String.utf8EncodeChar c ++ bs) = some c :: scanFrom none bs := by
  have hvalid : c.toNat < 0xD800 ∨ 0xDFFF < c.toNat ∧ c.toNat < 0x110000 := c.valid
  have hself := Char.ofNat_toNat c
  rw [String.utf8EncodeChar, Char.toNat_val]
  split
  · next hone =>
    rw [List.singleton_append, scanFrom, lead_ascii (by omega)]
  split
  · next hone htwo =>
    have hscan := scan_two bs (n := c.toNat) (by omega) (by omega)
    rwa [hself] at hscan
  split
  · next hone htwo hthree =>
    have hscan := scan_three bs (n := c.toNat) (by omega) (by omega) (by omega)
    rwa [hself] at hscan
  · next hone htwo hthree =>
    have hscan := scan_four bs (n := c.toNat) (by omega) (by omega)
    rwa [hself] at hscan

theorem scan_encodeChars (cs : List Char) : scan (encodeChars cs) = cs.map some := by
  induction cs with
  | nil => rfl
  | cons c cs ih =>
    rw [scan] at ih ⊢
    rw [encodeChars, List.flatMap_cons, ← encodeChars, scan_encodeChar, ih, List.map_cons]

/-- Every text is read back from its octets. -/
theorem decode?_encode (text : String) : decode? (encode text) = some text := by
  rw [decode?, encode, scan_encodeChars, mapM_map_some, Option.map_some, String.ofList_toList]

/-- Texts in order are in the order of their octets. -/
theorem compare_encode {s t : String} (h : compare s t = .lt) :
    compare (encode s) (encode t) = .lt := by
  have hlt : s < t := compareOfLessAndEq_eq_lt.mp h
  by_contra hne
  have hle : compare (encode t) (encode s) ≠ .gt := by rwa [ne_eq, Std.OrientedCmp.gt_iff_lt]
  exact le_of_decode hle (decode?_encode t) (decode?_encode s) hlt

end TagRegistry.Utf8
