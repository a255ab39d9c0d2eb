import TagRegistry.Bytes

/-! UTF-8, read one octet at a time.

`Utf8.scan` turns octets into characters and gaps. A gap stands for the longest run of octets
that begins a character without completing it, or for one octet that begins none; so a text
with gaps shown as U+FFFD has one replacement for each such run. A text is valid when its scan
has no gap. -/

namespace TagRegistry.Utf8

/-- A character of which some octets have been read: the bits so far, how many octets are
still to come, and the range of the next one. -/
structure Partial where
  bits : Nat
  missing : Nat
  low : UInt8
  high : UInt8
  deriving DecidableEq, Repr

/-- What an octet at the start of a character says. -/
inductive Lead where
  | char (c : Char)
  | start (p : Partial)
  | bad
  deriving DecidableEq, Repr

/-- Classifies the first octet of a character. The narrowed ranges after `E0`, `ED`, `F0` and
`F4` keep out overlong forms, surrogates and numbers above U+10FFFF. -/
def lead (b : UInt8) : Lead :=
  if b < 0x80 then .char (Char.ofNat b.toNat)
  else if b < 0xC2 then .bad
  else if b < 0xE0 then .start ⟨b.toNat % 0x20, 1, 0x80, 0xBF⟩
  else if b < 0xF0 then
    .start ⟨b.toNat % 0x10, 2, if b = 0xE0 then 0xA0 else 0x80, if b = 0xED then 0x9F else 0xBF⟩
  else if b < 0xF5 then
    .start ⟨b.toNat % 0x08, 3, if b = 0xF0 then 0x90 else 0x80, if b = 0xF4 then 0x8F else 0xBF⟩
  else .bad

/-- Characters, and `none` for each gap. -/
def scanFrom : Option Partial → Bytes → List (Option Char)
  | none, [] => []
  | some _, [] => [none]
  | pending, b :: bs =>
    match pending with
    | none =>
      match lead b with
      | .char c => some c :: scanFrom none bs
      | .start p => scanFrom (some p) bs
      | .bad => none :: scanFrom none bs
    | some p =>
      if p.low ≤ b && b ≤ p.high then
        let bits := p.bits * 0x40 + b.toNat % 0x40
        if p.missing ≤ 1 then some (Char.ofNat bits) :: scanFrom none bs
        else scanFrom (some ⟨bits, p.missing - 1, 0x80, 0xBF⟩) bs
      else
        match lead b with
        | .char c => none :: some c :: scanFrom none bs
        | .start q => none :: scanFrom (some q) bs
        | .bad => none :: none :: scanFrom none bs

def scan (bs : Bytes) : List (Option Char) := scanFrom none bs

/-- The text, if the octets are valid. -/
def decode? (bs : Bytes) : Option String :=
  ((scan bs).mapM id).map String.ofList

/-- The text with U+FFFD in every gap. -/
def decodeLossy (bs : Bytes) : String :=
  String.ofList ((scan bs).map fun item => item.getD '\uFFFD')

def encodeChars (cs : List Char) : Bytes := cs.flatMap String.utf8EncodeChar

def encode (s : String) : Bytes := encodeChars s.toList

/-- The longest front part that is valid. -/
def validPrefix (bs : Bytes) : Bytes :=
  bs.take (encodeChars (((scan bs).takeWhile Option.isSome).filterMap id)).length

end TagRegistry.Utf8
