/-! Decimal numbers below a bound. A number is a non-empty run of ASCII digits;
leading zeros are allowed and do not count against the bound. -/

namespace TagRegistry.Text.Decimal

/-- A non-empty run of ASCII digits. -/
def isRun (cs : List Char) : Bool := !cs.isEmpty && cs.all Char.isDigit

/-- The number written by a run of digits. -/
def value (cs : List Char) : Nat := Nat.ofDigitChars 10 cs 0

/-- The number written by digits after those that make `n`, if it is below `bound`. Digits never
make a number smaller, so the first number beyond the bound decides. -/
def extendBelow? (bound n : Nat) : List Char → Option Nat
  | [] => if n < bound then some n else none
  | c :: cs => if n < bound then extendBelow? bound (10 * n + (c.toNat - '0'.toNat)) cs else none

/-- Reads a run of digits whose value is below `bound`. -/
def readBelow? (bound : Nat) (cs : List Char) : Option Nat :=
  if isRun cs then extendBelow? bound 0 cs else none

theorem le_ofDigitChars (n : Nat) (cs : List Char) : n ≤ Nat.ofDigitChars 10 cs n := by
  induction cs generalizing n with
  | nil => simp
  | cons c cs ih =>
    rw [Nat.ofDigitChars_cons]
    exact Nat.le_trans (by omega) (ih _)

theorem extendBelow?_eq (bound n : Nat) (cs : List Char) :
    extendBelow? bound n cs =
      if Nat.ofDigitChars 10 cs n < bound then some (Nat.ofDigitChars 10 cs n) else none := by
  induction cs generalizing n with
  | nil => simp [extendBelow?]
  | cons c cs ih =>
    rw [extendBelow?, ih, Nat.ofDigitChars_cons]
    split
    · rfl
    · have := le_ofDigitChars (10 * n + (c.toNat - '0'.toNat)) cs
      rw [if_neg (by omega)]

/-- A run is read as its value. -/
theorem readBelow?_eq (bound : Nat) (cs : List Char) :
    readBelow? bound cs = if isRun cs && value cs < bound then some (value cs) else none := by
  rw [readBelow?, extendBelow?_eq, value]
  cases isRun cs
  · rfl
  · by_cases h : Nat.ofDigitChars 10 cs 0 < bound
    · simp [h]
    · simp only [h, Bool.true_and, decide_false, if_true, if_false, Bool.false_eq_true]

/-- The number of 64-bit words. -/
def wordBound : Nat := 0x10000000000000000

/-- Reads a run of digits whose value fits a 64-bit word. -/
def word? (cs : List Char) : Option UInt64 :=
  (readBelow? wordBound cs).map UInt64.ofNat

/-- The digits of a number, without leading zeros. -/
def digits (n : Nat) : List Char := Nat.toDigits 10 n

end TagRegistry.Text.Decimal
