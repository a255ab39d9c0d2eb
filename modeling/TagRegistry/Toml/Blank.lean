/-! White space, line ends and comments in TOML.

Every reader of this format takes the characters in front of it and returns what it found and
the characters after that, or nothing if the text is no TOML. A reader that loops uses up at least
one character in each round, so the characters in front of it also serve as its fuel. -/

namespace TagRegistry.Toml

def isCommentChar (c : Char) : Bool := c == '\t' || (' ' ≤ c && c ≠ '\x7f')

def isSpace (c : Char) : Bool := c == ' ' || c == '\t'

def skipSpace (cs : List Char) : List Char := cs.dropWhile isSpace

/-- What follows a line end. -/
def newline? : List Char → Option (List Char)
  | '\n' :: rest => some rest
  | '\r' :: '\n' :: rest => some rest
  | _ => none

/-- Skips a comment if there is one; its line end stays. -/
def skipComment : List Char → List Char
  | '#' :: rest => rest.dropWhile isCommentChar
  | cs => cs

/-- What follows the end of a line that holds nothing more than space and a comment. The last
line needs no line end. -/
def lineEnd? (cs : List Char) : Option (List Char) :=
  match skipComment (skipSpace cs) with
  | [] => some []
  | cs => newline? cs

/-- Skips lines that hold nothing more than space and a comment, of which there are no more than
characters in `fuel`. -/
def skipLines : List Char → List Char → List Char
  | [], cs => cs
  | _ :: fuel, cs =>
    let cs := skipSpace cs
    match newline? (skipComment cs) with
    | some rest => skipLines fuel rest
    | none => cs

/-- Skips space, line ends and comments, as between the items of an array. -/
def skipBlank (cs : List Char) : List Char := skipLines cs cs

end TagRegistry.Toml
