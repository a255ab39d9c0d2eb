import TagRegistry.Text.Hex

/-! Identifiers of stored objects: 40 or 64 lower-case hexadecimal digits. -/

namespace TagRegistry

open Text

def isHexDigit (c : Char) : Bool := c.isDigit || ('a' ≤ c && c ≤ 'f')

inductive ObjectIdError where
  | length (octets : Nat)
  | notHexadecimal
  deriving DecidableEq, Repr

def ObjectIdError.message : ObjectIdError → String
  | .length n => s!"invalid object id: expected 40 or 64 hex characters, got {n}"
  | .notHexadecimal => "invalid object id: object id must be hexadecimal"

structure ObjectId where
  digits : List Char
  length_eq : digits.length = 40 ∨ digits.length = 64
  hexadecimal : digits.all isHexDigit = true
  deriving DecidableEq, Repr

namespace ObjectId

def text (id : ObjectId) : String := String.ofList id.digits

instance : ToString ObjectId := ⟨text⟩

/-- Reads an identifier in either case. The length is counted in octets, so that a text with
other than ASCII characters is refused for its length first. -/
def parse (input : String) : Except ObjectIdError ObjectId :=
  let size := input.utf8ByteSize
  let digits := input.toList.map Char.toLower
  if size ≠ 40 ∧ size ≠ 64 then .error (.length size)
  else if h : (digits.length = 40 ∨ digits.length = 64) ∧ digits.all isHexDigit = true then
    .ok ⟨digits, h.1, h.2⟩
  else .error .notHexadecimal

/-- Reads 40 digits in octets. -/
def ofDigits? (digits : List UInt8) : Option ObjectId :=
  if digits.length = 40 then
    (parse (String.ofList (digits.map fun b => Char.ofNat b.toNat))).toOption
  else none

/-- The identifier that octets spell, two digits each. -/
def ofOctets? (octets : List UInt8) : Option ObjectId :=
  let digits := octets.flatMap fun b => [Hex.digit (b.toNat / 16), Hex.digit b.toNat]
  if h : (digits.length = 40 ∨ digits.length = 64) ∧ digits.all isHexDigit = true then
    some ⟨digits, h.1, h.2⟩
  else none

/-- The octets that spell digits. -/
def pairOctets : List Char → List UInt8
  | a :: b :: rest =>
    UInt8.ofNat ((Hex.value? a).getD 0 * 16 + (Hex.value? b).getD 0) :: pairOctets rest
  | _ => []

def octets (id : ObjectId) : List UInt8 := pairOctets id.digits

theorem isHexDigit_digit (n : Nat) : isHexDigit (Hex.digit n) = true := by
  have h : n % 16 < 16 := Nat.mod_lt _ (by decide)
  unfold Hex.digit
  generalize n % 16 = d at h
  revert d
  decide

theorem all_fixed (width n : Nat) : (Hex.fixed width n).all isHexDigit = true := by
  induction width generalizing n with
  | zero => rfl
  | succ width ih => simp [Hex.fixed, ih, isHexDigit_digit]

/-- The identifier whose digits spell a number. -/
def ofNat (n : Nat) : ObjectId :=
  ⟨Hex.fixed 40 n, .inl (Hex.length_fixed 40 n), all_fixed 40 n⟩

end ObjectId

/-- Identifier of the directory snapshot that a version tag points at. -/
structure TreeId where
  oid : ObjectId
  deriving DecidableEq, Repr

namespace TreeId

def text (tree : TreeId) : String := tree.oid.text

/-- Does a supplied text name this tree? Abbreviated or differently cased, it does not. -/
def names (tree : TreeId) (supplied : String) : Bool := tree.text == supplied

end TreeId

end TagRegistry
