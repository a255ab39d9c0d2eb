import TagRegistry.Text.Hex

/-! The inside of strings in JSON.

Reading takes two steps: a written string is a list of characters and of the halves of
surrogate pairs, which only escapes can stand for, and then halves are put together. A half that
stands alone is legal in a written string but means nothing. -/

namespace TagRegistry.Json

open Text

/-- A piece of a written string. -/
inductive Piece where
  | char (c : Char)
  | highHalf (bits : Nat)
  | lowHalf (bits : Nat)
  deriving DecidableEq, Repr

/-- What an escape of four hexadecimal digits stands for. -/
def pieceOf (code : Nat) : Piece :=
  if code < 0xD800 then .char (Char.ofNat code)
  else if code < 0xDC00 then .highHalf (code - 0xD800)
  else if code < 0xE000 then .lowHalf (code - 0xDC00)
  else .char (Char.ofNat code)

/-- The characters that one letter after a backslash stands for. -/
def letterOf? : Char → Option Char
  | '"' => some '"'
  | '\\' => some '\\'
  | '/' => some '/'
  | 'b' => some '\x08'
  | 'f' => some '\x0c'
  | 'n' => some '\n'
  | 'r' => some '\r'
  | 't' => some '\t'
  | _ => none

/-- The pieces of a written string. -/
def pieces? : List Char → Option (List Piece)
  | '\\' :: 'u' :: a :: b :: c :: d :: rest => do
    let (code, _) ← Hex.read 4 0 [a, b, c, d]
    return pieceOf code :: (← pieces? rest)
  | '\\' :: c :: rest => do return .char (← letterOf? c) :: (← pieces? rest)
  | c :: rest =>
    if c = '\\' ∨ c = '"' ∨ c < ' ' then none
    else (pieces? rest).map (.char c :: ·)
  | [] => some []

/-- Puts halves together. -/
def joinHalves? : List Piece → Option (List Char)
  | .char c :: rest => (joinHalves? rest).map (c :: ·)
  | .highHalf high :: .lowHalf low :: rest =>
    (joinHalves? rest).map (Char.ofNat (0x10000 + high * 0x400 + low) :: ·)
  | _ :: _ => none
  | [] => some []

/-- The text that a written string means. -/
def unescape? (written : List Char) : Option (List Char) := (pieces? written).bind joinHalves?

/-- Writes one character: quotes, backslashes and control characters are escaped. -/
def escapeChar (c : Char) : List Char :=
  if c = '"' then ['\\', '"']
  else if c = '\\' then ['\\', '\\']
  else if c = '\x08' then ['\\', 'b']
  else if c = '\t' then ['\\', 't']
  else if c = '\n' then ['\\', 'n']
  else if c = '\x0c' then ['\\', 'f']
  else if c = '\r' then ['\\', 'r']
  else if c < ' ' then '\\' :: 'u' :: Hex.fixed 4 c.toNat
  else [c]

def escape (text : List Char) : List Char := text.flatMap escapeChar

end TagRegistry.Json
