import TagRegistry.Text.Hex
import TagRegistry.Text.Utf8

/-! Percent encoding in paths. -/

namespace TagRegistry.Percent

def mark : UInt8 := 37

/-- The value of an octet that is a hexadecimal digit. -/
def digit? (b : UInt8) : Option Nat :=
  if b < 0x80 then Text.Hex.value? (Char.ofNat b.toNat) else none

/-- The octet that two digits stand for. -/
def escaped? (high low : UInt8) : Option UInt8 := do
  return UInt8.ofNat ((← digit? high) * 16 + (← digit? low))

/-- Undoes the encoding. A mark without two digits after it stands for itself. -/
def decode : Bytes → Bytes
  | [] => []
  | b :: high :: low :: rest =>
    if b = mark then
      match escaped? high low with
      | some octet => octet :: decode rest
      | none => b :: decode (high :: low :: rest)
    else b :: decode (high :: low :: rest)
  | b :: rest => b :: decode rest

end TagRegistry.Percent
