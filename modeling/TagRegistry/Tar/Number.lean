import TagRegistry.Bytes

/-! Numbers in tar headers: octal digits closed by a NUL, or, where the digits do not suffice,
the number in base 256 with the top bit of the field set. -/

namespace TagRegistry.Tar

/-- The last `width` octal digits of a number. -/
def octalDigits : Nat → Nat → Bytes
  | 0, _ => []
  | width + 1, n => octalDigits width (n / 8) ++ [UInt8.ofNat (48 + n % 8)]

/-- The last `width` octets of a number, the highest first. -/
def bigEndian : Nat → Nat → Bytes
  | 0, _ => []
  | width + 1, n => bigEndian width (n / 256) ++ [UInt8.ofNat (n % 256)]

/-- A field of seven digits. -/
def short (n : Nat) : Bytes := octalDigits 7 n ++ [0]

/-- The least number that eleven octal digits do not suffice for. -/
def longLimit : Nat := 0x200000000

/-- A field of eleven digits, or a 64-bit number in base 256. -/
def long (n : Nat) : Bytes :=
  if n < longLimit then octalDigits 11 n ++ [0] else [0x80, 0, 0, 0] ++ bigEndian 8 n

end TagRegistry.Tar
