import TagRegistry.Text.Hex
import TagRegistry.Toml.Blank

/-! Strings in TOML: on one line or several, with escapes or without. -/

namespace TagRegistry.Toml

/-- A reader: what it found, and what follows. -/
abbrev Reader (α : Type) := List Char → Option (α × List Char)

/-- Reads the code point of an escape; surrogates are none. -/
def codePoint (count : Nat) : Reader Char := fun cs => do
  let (value, rest) ← Text.Hex.read count 0 cs
  if value.isValidChar then some (Char.ofNat value, rest) else none

/-- Reads what follows a backslash. -/
def escape : Reader Char
  | 'b' :: cs => some ('\x08', cs)
  | 't' :: cs => some ('\t', cs)
  | 'n' :: cs => some ('\n', cs)
  | 'f' :: cs => some ('\x0c', cs)
  | 'r' :: cs => some ('\r', cs)
  | '"' :: cs => some ('"', cs)
  | '\\' :: cs => some ('\\', cs)
  | 'u' :: cs => codePoint 4 cs
  | 'U' :: cs => codePoint 8 cs
  | _ => none

/-- Reads the rest of a one-line string with escapes. -/
def basicRest : List Char → Reader (List Char)
  | _ :: fuel, c :: cs =>
    if c = '"' then some ([], cs)
    else if c = '\\' then do
      let (c, cs) ← escape cs
      let (text, rest) ← basicRest fuel cs
      return (c :: text, rest)
    else if isCommentChar c then do
      let (text, rest) ← basicRest fuel cs
      return (c :: text, rest)
    else none
  | _, _ => none

/-- Reads the rest of a one-line string without escapes. -/
def literalRest : Reader (List Char)
  | [] => none
  | c :: cs =>
    if c = '\'' then some ([], cs)
    else if isCommentChar c then (literalRest cs).map fun (text, rest) => (c :: text, rest)
    else none

/-- Skips space and line ends; none at a carriage return in front of anything but a line feed. -/
def skipLineEnds? : List Char → Option (List Char)
  | '\n' :: cs => skipLineEnds? cs
  | '\r' :: '\n' :: cs => skipLineEnds? cs
  | '\r' :: _ => none
  | c :: cs => if isSpace c then skipLineEnds? cs else some (c :: cs)
  | [] => some []

/-- Reads the rest of a string over several lines, which ends at three of the marks; up to two
more before them belong to the text. Line ends become line feeds. -/
def multiRest (mark : Char) (escapes : Bool) : List Char → Reader (List Char)
  | _ :: fuel, c :: cs =>
    let go (c : Char) (cs : List Char) := do
      let (text, rest) ← multiRest mark escapes fuel cs
      return (c :: text, rest)
    if c = mark then
      match cs with
      | a :: b :: rest =>
        if a = mark ∧ b = mark then
          let extra := (rest.takeWhile (· == mark)).take 2
          some (extra, rest.drop extra.length)
        else go c cs
      | _ => go c cs
    else if escapes && c == '\\' then
      match newline? (skipSpace cs) with
      | some rest => (skipLineEnds? rest).bind (multiRest mark escapes fuel)
      | none => do
        let (c, cs) ← escape cs
        go c cs
    else
      match newline? (c :: cs) with
      | some rest => go '\n' rest
      | none => if isCommentChar c then go c cs else none
  | _, _ => none

/-- Drops a line end right after the opening marks. -/
def dropNewline (cs : List Char) : List Char := (newline? cs).getD cs

/-- Reads a string on one line, as it may also be a key. -/
def lineString : Reader (List Char)
  | '"' :: cs => basicRest cs cs
  | '\'' :: cs => literalRest cs
  | _ => none

/-- Reads a string of any form. -/
def anyString : Reader (List Char)
  | '"' :: '"' :: '"' :: cs => multiRest '"' true cs (dropNewline cs)
  | '\'' :: '\'' :: '\'' :: cs => multiRest '\'' false cs (dropNewline cs)
  | cs => lineString cs

end TagRegistry.Toml
