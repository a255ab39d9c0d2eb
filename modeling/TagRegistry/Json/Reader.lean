import TagRegistry.Json.Value

/-! Reading JSON. -/

namespace TagRegistry.Json

/-- White space between the parts of a value. -/
def isBlank (c : Char) : Bool := c == ' ' || c == '\n' || c == '\t' || c == '\r'

def skipBlank (cs : List Char) : List Char := cs.dropWhile isBlank

/-- Reads the rest of a string up to its closing quote. Which escapes there are is not checked
here. -/
def stringRest : List Char → Option (List Char × List Char)
  | [] => none
  | '"' :: rest => some ([], rest)
  | '\\' :: c :: rest => (stringRest rest).map fun (written, rest) => ('\\' :: c :: written, rest)
  | c :: rest => (stringRest rest).map fun (written, rest) => (c :: written, rest)

/-- Reads the rest of a legal string. -/
def legalString (cs : List Char) : Option (List Char × List Char) := do
  let (written, rest) ← stringRest cs
  if (pieces? written).isSome then return (written, rest) else none

/-- Splits off a run of digits that is not empty. -/
def digitRun (cs : List Char) : Option (List Char × List Char) :=
  match cs.takeWhile Char.isDigit with
  | [] => none
  | run => some (run, cs.dropWhile Char.isDigit)

def splitSign : List Char → List Char × List Char
  | '+' :: rest => (['+'], rest)
  | '-' :: rest => (['-'], rest)
  | cs => ([], cs)

/-- Splits off digits without a leading zero, unless it is the only one. -/
def wholePart : List Char → Option (List Char × List Char)
  | '0' :: rest => if (rest.head?.map Char.isDigit).getD false then none else some (['0'], rest)
  | cs => digitRun cs

def fractionPart : List Char → Option (List Char × List Char)
  | '.' :: rest => (digitRun rest).map fun (run, rest) => ('.' :: run, rest)
  | cs => some ([], cs)

def exponentPart : List Char → Option (List Char × List Char)
  | c :: rest =>
    if c = 'e' ∨ c = 'E' then
      let (sign, rest) := splitSign rest
      (digitRun rest).map fun (run, rest) => (c :: sign ++ run, rest)
    else some ([], c :: rest)
  | [] => some ([], [])

def number (cs : List Char) : Option (Value × List Char) := do
  let (sign, cs) := match cs with
    | '-' :: rest => (['-'], rest)
    | cs => ([], cs)
  let (whole, cs) ← wholePart cs
  let (fraction, cs) ← fractionPart cs
  let (exponent, cs) ← exponentPart cs
  return (.number (sign ++ whole ++ fraction ++ exponent), cs)

mutual

/-- Reads a value after white space. Every step down takes a character or is followed by one
that does, so that twice the length of the text is fuel enough. -/
def value : Nat → List Char → Option (Value × List Char)
  | 0, _ => none
  | fuel + 1, cs =>
    match skipBlank cs with
    | 'n' :: 'u' :: 'l' :: 'l' :: rest => some (.null, rest)
    | 't' :: 'r' :: 'u' :: 'e' :: rest => some (.bool true, rest)
    | 'f' :: 'a' :: 'l' :: 's' :: 'e' :: rest => some (.bool false, rest)
    | '"' :: rest => (legalString rest).map fun (written, rest) => (.string written, rest)
    | '[' :: rest =>
      match skipBlank rest with
      | ']' :: rest => some (.array [], rest)
      | rest => (itemsRest fuel rest).map fun (items, rest) => (.array items, rest)
    | '\x7b' :: rest =>
      match skipBlank rest with
      | '\x7d' :: rest => some (.object [], rest)
      | rest => (fieldsRest fuel rest).map fun (fields, rest) => (.object fields, rest)
    | cs => number cs

/-- Reads the items of an array, of which there is at least one, and its closing bracket. -/
def itemsRest : Nat → List Char → Option (List Value × List Char)
  | 0, _ => none
  | fuel + 1, cs => do
    let (item, cs) ← value fuel cs
    match skipBlank cs with
    | ',' :: rest => do
      let (items, rest) ← itemsRest fuel rest
      return (item :: items, rest)
    | ']' :: rest => return ([item], rest)
    | _ => none

/-- Reads the fields of an object in the same way. -/
def fieldsRest : Nat → List Char → Option (List (List Char × Value) × List Char)
  | 0, _ => none
  | fuel + 1, cs => do
    match skipBlank cs with
    | '"' :: rest => do
      let (name, cs) ← legalString rest
      match skipBlank cs with
      | ':' :: rest => do
        let (v, cs) ← value fuel rest
        match skipBlank cs with
        | ',' :: rest => do
          let (fields, rest) ← fieldsRest fuel rest
          return ((name, v) :: fields, rest)
        | '\x7d' :: rest => return ([(name, v)], rest)
        | _ => none
      | _ => none
    | _ => none

end

/-- Reads a text that holds one value and white space. -/
def read? (text : String) : Option Value :=
  let cs := text.toList
  match value (2 * cs.length + 2) cs with
  | some (v, rest) => if (skipBlank rest).isEmpty then some v else none
  | none => none

end TagRegistry.Json
