/-! Hexadecimal digits. -/

namespace TagRegistry.Text.Hex

/-- The value of a digit of either case. -/
def value? (c : Char) : Option Nat :=
  if c.isDigit then some (c.toNat - 48)
  else if 'a' ≤ c ∧ c ≤ 'f' then some (c.toNat - 87)
  else if 'A' ≤ c ∧ c ≤ 'F' then some (c.toNat - 55)
  else none

/-- The small digit for the last four bits of a number. -/
def digit (n : Nat) : Char := Nat.digitChar (n % 16)

/-- The last `width` digits of a number. -/
def fixed : Nat → Nat → List Char
  | 0, _ => []
  | width + 1, n => fixed width (n / 16) ++ [digit n]

/-- Reads exactly `count` digits after those that make `value`, and returns what follows. -/
def read : Nat → Nat → List Char → Option (Nat × List Char)
  | 0, value, cs => some (value, cs)
  | count + 1, value, c :: cs => do read count (value * 16 + (← value? c)) cs
  | _ + 1, _, [] => none

theorem length_fixed (width n : Nat) : (fixed width n).length = width := by
  induction width generalizing n with
  | zero => rfl
  | succ width ih => simp [fixed, ih]

theorem value?_digit (n : Nat) : value? (digit n) = some (n % 16) := by
  have h : n % 16 < 16 := Nat.mod_lt _ (by decide)
  unfold digit
  generalize n % 16 = d at h
  revert d
  decide

end TagRegistry.Text.Hex
