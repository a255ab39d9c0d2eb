import Mathlib.Data.List.TakeWhile
import Mathlib.Tactic.Ring
import TagRegistry.Archive

/-! Reading tar archives in the GNU format, and reading back what is written.

A member is a block with its header and the blocks of its content. Records of kind `L` and `K`
carry the name and the link target of the member that follows them. The archive ends at two empty
blocks, and nothing may stand behind them. A header is only accepted with the right checksum. -/

namespace TagRegistry.Tar

open Bytes (beforeNul)

/-! ## Numbers -/

def isOctalDigit (b : UInt8) : Bool := 48 ≤ b && b ≤ 55

/-- The number that octal digits make after those that make `n`. Anything but a NUL or a blank
behind them is refused. -/
def octalFrom? (n : Nat) : Bytes → Option Nat
  | [] => some n
  | b :: bs =>
    if isOctalDigit b then octalFrom? (8 * n + (b.toNat - 48)) bs
    else if b = 0 ∨ b = 32 then some n
    else none

/-- Reads octal digits, of which there is at least one. Blanks in front do not count. -/
def readOctal? (field : Bytes) : Option Nat :=
  match field.dropWhile (· == 32) with
  | [] => none
  | b :: bs => if isOctalDigit b then octalFrom? 0 (b :: bs) else none

/-- The number that octets spell after those that spell `n`, the highest first. -/
def fromBigEndian (n : Nat) : Bytes → Nat
  | [] => n
  | b :: bs => fromBigEndian (256 * n + b.toNat) bs

/-- Reads a number in octal, or in base 256 if the top bit is set. Negative numbers are refused. -/
def readNumber? : Bytes → Option Nat
  | [] => none
  | b :: bs =>
    if b < 0x80 then readOctal? (b :: bs)
    else if b < 0xC0 then some (fromBigEndian (b.toNat - 0x80) bs)
    else none

/-! ## Headers -/

/-- What a header says. -/
structure Head where
  kind : Kind
  name : Bytes
  mode : Nat
  owner : Nat
  group : Nat
  size : Nat
  mtime : Nat
  linkName : Bytes
  ownerName : Bytes
  groupName : Bytes
  deriving DecidableEq, Repr

/-- The kind of a member. An old flag for files is known too. -/
def Kind.ofFlag? (b : UInt8) : Option Kind :=
  if b = 0 ∨ b = 48 then some .file
  else if b = 50 then some .symlink
  else if b = 53 then some .directory
  else if b = 76 then some .longName
  else if b = 75 then some .longLink
  else none

/-- The widths of name, mode, owner, group, size, time, checksum, flag, link name, magic, and the
names of owner and group. -/
def fieldWidths : List Nat := [100, 8, 8, 8, 12, 12, 8, 1, 100, 8, 32, 32]

/-- Cuts octets into fields. -/
def cutFields : List Nat → Bytes → List Bytes
  | [], _ => []
  | width :: widths, bs => bs.take width :: cutFields widths (bs.drop width)

/-- The sum of a header's octets, those of the checksum taken as blanks. -/
def headerSum (block : Bytes) : Nat :=
  (block.take 148 ++ List.replicate 8 32 ++ block.drop 156).foldl
    (fun sum (b : UInt8) => sum + b.toNat) 0

/-- Reads a header. -/
def readHead? (block : Bytes) : Option Head :=
  match cutFields fieldWidths block with
  | [name, mode, owner, group, size, mtime, sum, [flag], linkName, mark, ownerName, groupName] =>
    if mark = magic ∧ readOctal? sum = some (headerSum block) then do
      return ⟨← Kind.ofFlag? flag, beforeNul name, ← readNumber? mode, ← readNumber? owner,
        ← readNumber? group, ← readNumber? size, ← readNumber? mtime, beforeNul linkName,
        beforeNul ownerName, beforeNul groupName⟩
    else none
  | _ => none

/-! ## Members -/

/-- A member of an archive. -/
structure Member where
  kind : Kind
  path : Bytes
  mode : Nat
  owner : Nat
  group : Nat
  mtime : Nat
  target : Bytes
  ownerName : Bytes
  groupName : Bytes
  content : Bytes
  deriving DecidableEq, Repr

/-- The member with a header and a content. A name or target from a record goes before that of the
header. -/
def Head.member (h : Head) (name? target? : Option Bytes) (content : Bytes) : Member :=
  ⟨h.kind, name?.getD h.name, h.mode, h.owner, h.group, h.mtime, target?.getD h.linkName,
    h.ownerName, h.groupName, content⟩

/-- A length filled up to whole blocks. -/
def inBlocks (length : Nat) : Nat := (length + (blockSize - 1)) / blockSize * blockSize

def emptyBlock : Bytes := List.replicate blockSize 0

/-- Reads members up to the end of the archive. The name and target of records that have been read
wait for their member. -/
def readMembers? (name? target? : Option Bytes) (bs : Bytes) : Option (List Member) :=
  if bs.length < blockSize then none
  else if bs.take blockSize = emptyBlock then
    if bs.drop blockSize = emptyBlock ∧ name? = none ∧ target? = none then some [] else none
  else
    match readHead? (bs.take blockSize) with
    | none => none
    | some head =>
      let body := bs.drop blockSize
      let content := body.take head.size
      let rest := body.drop (inBlocks head.size)
      if body.length < inBlocks head.size then none
      else
        match head.kind with
        | .longName => readMembers? (some (beforeNul content)) target? rest
        | .longLink => readMembers? name? (some (beforeNul content)) rest
        | _ => (readMembers? none none rest).map (head.member name? target? content :: ·)
termination_by bs.length
decreasing_by
  all_goals
    simp only [List.length_drop, blockSize] at *
    omega

/-- The members of an archive. -/
def read? (archive : Bytes) : Option (List Member) := readMembers? none none archive

/-! ## Numbers read back -/

theorem isOctalDigit_ofNat (n : Nat) : isOctalDigit (UInt8.ofNat (48 + n % 8)) = true := by
  have h : n % 8 < 8 := Nat.mod_lt _ (by decide)
  generalize n % 8 = d at h
  revert d
  decide

theorem toNat_octalDigit (n : Nat) : (UInt8.ofNat (48 + n % 8)).toNat - 48 = n % 8 := by
  rw [UInt8.toNat_ofNat']
  omega

theorem octalFrom?_octalDigits (width n : Nat) (acc : Nat) (rest : Bytes) :
    octalFrom? acc (octalDigits width n ++ rest) =
      octalFrom? (8 ^ width * acc + n % 8 ^ width) rest := by
  induction width generalizing n acc rest with
  | zero => simp [octalDigits, Nat.mod_one]
  | succ width ih =>
    rw [octalDigits, List.append_assoc, ih, List.singleton_append, octalFrom?,
      if_pos (isOctalDigit_ofNat n), toNat_octalDigit]
    congr 1
    rw [Nat.pow_succ', Nat.mod_mul]
    ring

/-- A written field begins with a digit. -/
theorem exists_octalDigits_cons (width n : Nat) :
    ∃ b bs, octalDigits (width + 1) n = b :: bs ∧ isOctalDigit b = true := by
  induction width generalizing n with
  | zero => exact ⟨_, [], rfl, isOctalDigit_ofNat n⟩
  | succ width ih =>
    obtain ⟨b, bs, h, hb⟩ := ih (n / 8)
    exact ⟨b, bs ++ [UInt8.ofNat (48 + n % 8)], by rw [octalDigits, h]; rfl, hb⟩

theorem readOctal?_octalDigits {width n : Nat} (h : n < 8 ^ (width + 1)) :
    readOctal? (octalDigits (width + 1) n ++ [0]) = some n := by
  obtain ⟨b, bs, hcons, hb⟩ := exists_octalDigits_cons width n
  have hread := octalFrom?_octalDigits (width + 1) n 0 [0]
  rw [hcons] at hread ⊢
  have hblank : (b == 32) = false := by
    rw [beq_eq_false_iff_ne]
    rintro rfl
    cases hb
  rw [readOctal?, List.cons_append, List.dropWhile_cons_of_neg (by simp [hblank])]
  simp only [hb, if_true]
  rw [← List.cons_append, hread, Nat.mul_zero, Nat.zero_add, Nat.mod_eq_of_lt h]
  rfl

theorem readNumber?_octalDigits {width n : Nat} (h : n < 8 ^ (width + 1)) :
    readNumber? (octalDigits (width + 1) n ++ [0]) = some n := by
  rw [← readOctal?_octalDigits h]
  obtain ⟨b, bs, hcons, hb⟩ := exists_octalDigits_cons width n
  have hlow : b < 0x80 := by
    simp only [isOctalDigit, Bool.and_eq_true, decide_eq_true_eq] at hb
    exact UInt8.lt_of_le_of_lt hb.2 (by decide)
  rw [hcons, List.cons_append, readNumber?, if_pos hlow]

theorem fromBigEndian_bigEndian (width n : Nat) (acc : Nat) (rest : Bytes) :
    fromBigEndian acc (bigEndian width n ++ rest) =
      fromBigEndian (256 ^ width * acc + n % 256 ^ width) rest := by
  induction width generalizing n acc rest with
  | zero => simp [bigEndian, Nat.mod_one]
  | succ width ih =>
    rw [bigEndian, List.append_assoc, ih, List.singleton_append, fromBigEndian,
      UInt8.toNat_ofNat', show n % 256 % 2 ^ 8 = n % 256 from Nat.mod_mod n 256, Nat.pow_succ',
      Nat.mod_mul]
    congr 1
    ring

theorem readNumber?_short {n : Nat} (h : n < 8 ^ 7) : readNumber? (short n) = some n :=
  readNumber?_octalDigits h

theorem readNumber?_long {n : Nat} (h : n < 2 ^ 64) : readNumber? (long n) = some n := by
  unfold long
  split
  · next hlt => exact readNumber?_octalDigits (by simpa [longLimit] using hlt)
  · have hread := fromBigEndian_bigEndian 8 n 0 []
    rw [List.append_nil, Nat.mod_eq_of_lt (by simpa using h)] at hread
    simp only [List.cons_append, List.nil_append, readNumber?]
    rw [if_neg (by decide), if_pos (by decide)]
    simpa [fromBigEndian] using hread

/-! ## Headers read back -/

@[simp] theorem length_fit (width : Nat) (bs : Bytes) : (fit width bs).length = width := by
  simp [fit]
  omega

@[simp] theorem length_octalDigits (width n : Nat) : (octalDigits width n).length = width := by
  induction width generalizing n with
  | zero => rfl
  | succ width ih => simp [octalDigits, ih]

@[simp] theorem length_bigEndian (width n : Nat) : (bigEndian width n).length = width := by
  induction width generalizing n with
  | zero => rfl
  | succ width ih => simp [bigEndian, ih]

@[simp] theorem length_short (n : Nat) : (short n).length = 8 := by simp [short]

@[simp] theorem length_long (n : Nat) : (long n).length = 12 := by
  unfold long
  split <;> simp

theorem Header.length_front (h : Header) : h.front.length = 148 := by
  simp [Header.front, fieldSize]

theorem length_magic : magic.length = 8 := rfl

theorem Header.length_back (h : Header) : h.back.length = 356 := by
  simp only [Header.back, List.length_append, List.length_cons, length_fit, length_magic,
    List.length_replicate, fieldSize]

theorem Header.length_encode (h : Header) : h.encode.length = blockSize := by
  simp [Header.encode, Header.length_front, Header.length_back, blockSize]

theorem foldl_toNat_le (bs : Bytes) (sum : Nat) :
    bs.foldl (fun sum (b : UInt8) => sum + b.toNat) sum ≤ sum + 255 * bs.length := by
  induction bs generalizing sum with
  | nil => simp
  | cons b bs ih =>
    have hb : b.toNat < 256 := b.toNat_lt
    have hstep := ih (sum + b.toNat)
    rw [List.foldl_cons, List.length_cons]
    omega

theorem Header.checksum_lt (h : Header) : h.checksum < 8 ^ 7 := by
  have hle := foldl_toNat_le (h.front ++ List.replicate 8 32 ++ h.back) 0
  simp only [List.length_append, List.length_replicate, h.length_front, h.length_back] at hle
  unfold Header.checksum
  omega

theorem headerSum_encode (h : Header) : headerSum h.encode = h.checksum := by
  have hfront : h.encode.take 148 = h.front := by
    rw [Header.encode, List.append_assoc, List.take_left' h.length_front]
  have hback : h.encode.drop 156 = h.back := by
    rw [Header.encode, List.drop_left' (by simp [h.length_front])]
  rw [headerSum, hfront, hback, Header.checksum]

theorem cutFields_append {width : Nat} {widths : List Nat} {field rest : Bytes}
    (h : field.length = width) :
    cutFields (width :: widths) (field ++ rest) = field :: cutFields widths rest := by
  rw [cutFields, List.take_left' h, List.drop_left' h]

theorem cutFields_encode (h : Header) :
    cutFields fieldWidths h.encode =
      [fit fieldSize h.name, short h.mode, short 0, short 0, long h.size, long h.mtime,
        short h.checksum, [h.kind.flag], fit fieldSize h.linkName, magic,
        List.replicate 32 0, List.replicate 32 0] := by
  have hzeros : (List.replicate 247 0 : Bytes) =
      List.replicate 32 0 ++ (List.replicate 32 0 ++ (List.replicate 183 0 ++ [])) := by
    rw [List.append_nil, List.replicate_append_replicate, List.replicate_append_replicate]
  have hback : h.back = [h.kind.flag] ++ (fit fieldSize h.linkName ++ (magic ++
      (List.replicate 32 0 ++ (List.replicate 32 0 ++ (List.replicate 183 0 ++ []))))) := by
    rw [← hzeros]
    simp only [Header.back, List.append_assoc, List.cons_append, List.nil_append]
  rw [Header.encode, Header.front, hback]
  simp only [List.append_assoc]
  unfold fieldWidths
  repeat rw [cutFields_append (by simp [fieldSize, length_magic])]
  rfl

theorem ofFlag?_flag (kind : Kind) : Kind.ofFlag? kind.flag = some kind := by
  cases kind <;> decide

theorem beforeNul_zeros (n : Nat) : beforeNul (List.replicate n 0) = [] := by
  cases n <;> rfl

/-- What a reader sees of a header. -/
def Header.head (h : Header) : Head where
  kind := h.kind
  name := beforeNul (fit fieldSize h.name)
  mode := h.mode
  owner := 0
  group := 0
  size := h.size
  mtime := h.mtime
  linkName := beforeNul (fit fieldSize h.linkName)
  ownerName := []
  groupName := []

/-- Numbers that their fields can hold. -/
structure Header.Fits (h : Header) : Prop where
  mode : h.mode < 8 ^ 7
  size : h.size < 2 ^ 64
  mtime : h.mtime < 2 ^ 64

/-- A header that fits is read as what was written. -/
theorem readHead?_encode {h : Header} (hfits : h.Fits) : readHead? h.encode = some h.head := by
  have hsum : readOctal? (short h.checksum) = some (headerSum h.encode) := by
    rw [headerSum_encode]
    exact readOctal?_octalDigits h.checksum_lt
  unfold readHead?
  rw [cutFields_encode]
  simp only [hsum, and_self, if_true, ofFlag?_flag, readNumber?_short hfits.mode,
    readNumber?_short (by decide : 0 < 8 ^ 7), readNumber?_long hfits.size,
    readNumber?_long hfits.mtime, beforeNul_zeros]
  rfl

/-! ## Members read back -/

theorem Header.encode_ne_emptyBlock (h : Header) : h.encode ≠ emptyBlock := by
  intro he
  -- No kind has NUL as its flag.
  have hmem : h.kind.flag ∈ h.encode :=
    List.mem_append_right _ (List.mem_append_left _ (List.mem_append_left _ List.mem_cons_self))
  have hzero := (List.eq_replicate_iff.mp he).2 h.kind.flag hmem
  cases hk : h.kind <;> rw [hk] at hzero <;> cases hzero

theorem length_padding (length : Nat) : length + (padding length).length = inBlocks length := by
  simp only [padding, inBlocks, blockSize, List.length_replicate]
  omega

/-- What a header and its content mean in front of other members. -/
theorem readMembers?_encode {h : Header} (hfits : h.Fits) {name? target? : Option Bytes}
    {content rest : Bytes} (hsize : h.size = content.length) :
    readMembers? name? target? (h.encode ++ (content ++ (padding content.length ++ rest))) =
      match h.kind with
      | .longName => readMembers? (some (beforeNul content)) target? rest
      | .longLink => readMembers? name? (some (beforeNul content)) rest
      | _ => (readMembers? none none rest).map (h.head.member name? target? content :: ·) := by
  have hlong : (content ++ padding content.length).length = inBlocks content.length := by
    rw [List.length_append, length_padding]
  rw [readMembers?, if_neg (by rw [List.length_append, h.length_encode]; omega)]
  rw [List.take_left' h.length_encode, List.drop_left' h.length_encode,
    if_neg h.encode_ne_emptyBlock, readHead?_encode hfits]
  have hhead : h.head.size = content.length := hsize
  simp only [hhead]
  rw [← List.append_assoc content, if_neg (by rw [List.length_append, hlong]; omega),
    List.drop_left' hlong, List.append_assoc, List.take_left' rfl]
  rfl

theorem beforeNul_append_zeros (bs : Bytes) (n : Nat) :
    beforeNul (bs ++ List.replicate n 0) = beforeNul bs := by
  induction bs with
  | nil => exact beforeNul_zeros n
  | cons b bs ih =>
    unfold beforeNul at ih ⊢
    rw [List.cons_append, List.takeWhile_cons, List.takeWhile_cons, ih]

theorem beforeNul_of_not_mem {bs : Bytes} (h : 0 ∉ bs) : beforeNul bs = bs :=
  List.takeWhile_eq_self_iff.mpr fun b hb => by simpa using fun hz : b = 0 => h (hz ▸ hb)

/-- A text that a field can hold is read up to its first NUL. -/
theorem beforeNul_fit {bs : Bytes} (hle : bs.length ≤ fieldSize) :
    beforeNul (fit fieldSize bs) = beforeNul bs := by
  rw [fit, List.take_of_length_le hle, beforeNul_append_zeros]

theorem fit_fit (width : Nat) (bs : Bytes) : fit width (fit width bs) = fit width bs := by
  have hlength := length_fit width bs
  rw [fit, List.take_of_length_le (by omega), hlength, Nat.sub_self, List.replicate_zero,
    List.append_nil]

theorem readMembers?_trailer : readMembers? none none trailer = some [] := by
  have htrailer : trailer = emptyBlock ++ emptyBlock := by
    rw [emptyBlock, List.replicate_append_replicate]
    rfl
  have hlength : emptyBlock.length = blockSize := List.length_replicate
  rw [htrailer, readMembers?, if_neg (by rw [List.length_append, hlength]; omega),
    List.take_left' hlength, List.drop_left' hlength]
  simp

end TagRegistry.Tar
