import TagRegistry.Toml.Quoted

/-! Dates and times in TOML. A configuration uses none, so only their form is read. -/

namespace TagRegistry.Toml

def fixedDigits : Nat → Nat → Reader Nat
  | 0, value, cs => some (value, cs)
  | width + 1, value, c :: cs =>
    if c.isDigit then fixedDigits width (value * 10 + (c.toNat - 48)) cs else none
  | _ + 1, _, [] => none

/-- Reads a two-digit number in a range. -/
def twoDigits (low high : Nat) : Reader Nat := fun cs => do
  let (n, rest) ← fixedDigits 2 0 cs
  if low ≤ n ∧ n ≤ high then some (n, rest) else none

/-- What follows a character, if it is there. -/
def after (c : Char) : List Char → Option (List Char)
  | d :: cs => if d = c then some cs else none
  | [] => none

def isLeapYear (year : Nat) : Bool := year % 4 == 0 && (year % 100 != 0 || year % 400 == 0)

def daysOf (year month : Nat) : Nat :=
  if month = 2 then (if isLeapYear year then 29 else 28)
  else if month ∈ [4, 6, 9, 11] then 30
  else 31

/-- Reads `-MM-DD` after a year. -/
def dateRest (year : Nat) (cs : List Char) : Option (List Char) := do
  let (month, cs) ← twoDigits 1 12 (← after '-' cs)
  let (_, cs) ← twoDigits 1 (daysOf year month) (← after '-' cs)
  return cs

/-- Reads the fraction of a second, if there is one. -/
def secondFraction : List Char → Option (List Char)
  | '.' :: c :: cs => if c.isDigit then some (cs.dropWhile Char.isDigit) else none
  | '.' :: [] => none
  | cs => some cs

/-- Reads `:MM:SS` and a fraction after an hour. -/
def timeRest (cs : List Char) : Option (List Char) := do
  let (_, cs) ← twoDigits 0 59 (← after ':' cs)
  let (_, cs) ← twoDigits 0 60 (← after ':' cs)
  secondFraction cs

/-- Reads the distance from universal time, if there is one. -/
def offset : List Char → Option (List Char)
  | c :: cs =>
    if c = 'Z' ∨ c = 'z' then some cs
    else if c = '+' ∨ c = '-' then do
      let (_, cs) ← twoDigits 0 23 cs
      let (_, cs) ← twoDigits 0 59 (← after ':' cs)
      return cs
    else some (c :: cs)
  | [] => some []

/-- Reads the time of a date, if there is one. What follows the mark decides: without an hour
and a colon the date stands alone. -/
def dayTime (cs : List Char) : Option (List Char) :=
  match cs with
  | c :: rest =>
    if c = 'T' ∨ c = 't' ∨ c = ' ' then
      match twoDigits 0 23 rest with
      | some (_, ':' :: more) => (timeRest (':' :: more)).bind offset
      | _ => some cs
    else some cs
  | [] => some []

/-- Reads a date, a time or both. `none` says that the text is something else, `some none` that
it starts like a date or a time but is none. -/
def moment (cs : List Char) : Option (Option (List Char)) :=
  match fixedDigits 4 0 cs with
  | some (year, '-' :: rest) => some ((dateRest year ('-' :: rest)).bind dayTime)
  | _ =>
    match twoDigits 0 23 cs with
    | some (_, ':' :: rest) => some (timeRest (':' :: rest))
    | _ => none

end TagRegistry.Toml
