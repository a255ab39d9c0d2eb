import TagRegistry.Text.Decimal
import TagRegistry.Toml.Quoted

/-! Numbers in TOML. A configuration uses none, so only their form and range are read. -/

namespace TagRegistry.Toml

/-- Reads digits, single underscores between them. -/
def digitRun (isDigit : Char → Bool) : Reader (List Char)
  | [] => none
  | c :: cs =>
    if !isDigit c then none
    else
      match cs with
      | '_' :: d :: rest =>
        if isDigit d then (digitRun isDigit (d :: rest)).map fun (ds, rest) => (c :: ds, rest)
        else none
      | '_' :: [] => none
      | d :: rest =>
        if isDigit d then (digitRun isDigit (d :: rest)).map fun (ds, rest) => (c :: ds, rest)
        else some ([c], d :: rest)
      | [] => some ([c], [])

def decimal : Reader (List Char)
  | '0' :: rest => some (['0'], rest)
  | cs => digitRun Char.isDigit cs

/-- Reads a sign: is it a minus? -/
def sign : List Char → Bool × List Char
  | '+' :: cs => (false, cs)
  | '-' :: cs => (true, cs)
  | cs => (false, cs)

/-- The bound of the absolute value of an integer. -/
def integerBound : Nat := 1 <<< 63

/-- From here on a number is nearer to infinity than to the largest binary64 number. -/
def floatBound : Nat := 1 <<< 1024 - 1 <<< 970

/-- Is `digits` times ten to `exponent` below the bound? Long before the exact comparison gets
large, the number of digits decides. -/
def isBelowFloatBound (digits : List Char) (exponent : Int) : Bool :=
  let digits := digits.dropWhile (· == '0')
  let size : Int := digits.length + exponent
  if digits.isEmpty || size ≤ 308 then true
  else if 310 ≤ size then false
  else
    let value := Nat.ofDigitChars 10 digits 0
    if 0 ≤ exponent then value * Nat.pow 10 exponent.toNat < floatBound
    else value < floatBound * Nat.pow 10 (-exponent).toNat

/-- Reads a fraction after its point, if there is one. -/
def fraction : Reader (List Char)
  | '.' :: cs => digitRun Char.isDigit cs
  | cs => some ([], cs)

/-- The value of an exponent. Once it has reached 65536 further digits are not counted. -/
def exponentValue (digits : List Char) : Nat :=
  digits.foldl (fun n c => if n < 65536 then 10 * n + (c.toNat - '0'.toNat) else n) 0

/-- Reads an exponent after its mark, if there is one. -/
def exponent : Reader Int
  | c :: cs =>
    if c = 'e' ∨ c = 'E' then do
      let (negative, cs) := sign cs
      let (ds, rest) ← digitRun Char.isDigit cs
      let n : Int := exponentValue ds
      return (if negative then -n else n, rest)
    else some (0, c :: cs)
  | [] => some (0, [])

/-- Reads a run of digits of another base after its mark. Besides leading zeros there are fewer
digits than an integer has bits. -/
def based (isDigit : Char → Bool) (base : Nat) (cs : List Char) : Option (List Char) := do
  let (ds, rest) ← digitRun isDigit cs
  let ds := ds.dropWhile (· == '0')
  let value := (ds.take 64).foldl (fun n c => n * base + (Text.Hex.value? c).getD 0) 0
  if ds.length < 64 && value < integerBound then some rest else none

/-- Does a fraction or an exponent start with this? -/
def isFloatMark (c : Char) : Bool := c == '.' || c == 'e' || c == 'E'

/-- Reads a number and returns what follows. -/
def number (cs : List Char) : Option (List Char) :=
  match cs with
  | '0' :: 'x' :: rest => based (fun c => (Text.Hex.value? c).isSome) 16 rest
  | '0' :: 'o' :: rest => based (fun c => '0' ≤ c && c < '8') 8 rest
  | '0' :: 'b' :: rest => based (fun c => c == '0' || c == '1') 2 rest
  | _ =>
    let (negative, unsigned) := sign cs
    match unsigned with
    | 'i' :: 'n' :: 'f' :: rest => some rest
    | 'n' :: 'a' :: 'n' :: rest => some rest
    | _ => do
      let (whole, rest) ← decimal unsigned
      if rest.head?.any isFloatMark then
        let (part, rest) ← fraction rest
        let (exp, rest) ← exponent rest
        if negative || isBelowFloatBound (whole ++ part) (exp - part.length) then some rest
        else none
      else
        let bound := if negative then integerBound + 1 else integerBound
        (Text.Decimal.extendBelow? bound 0 whole).map fun _ => rest

end TagRegistry.Toml
