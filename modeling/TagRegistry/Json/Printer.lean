import TagRegistry.Json.Value

/-! Printing JSON with one item or field a line, each level two spaces further in. Empty arrays
and objects stay on one line. -/

namespace TagRegistry.Json

/-- A line end and the indentation of the next line. -/
def newLine (depth : Nat) : List Char := '\n' :: List.replicate (2 * depth) ' '

def quoted (written : List Char) : List Char := '"' :: written ++ ['"']

mutual

/-- Prints a value that starts at a depth. -/
def pretty (depth : Nat) : Value → List Char
  | .null => ['n', 'u', 'l', 'l']
  | .bool true => ['t', 'r', 'u', 'e']
  | .bool false => ['f', 'a', 'l', 's', 'e']
  | .number written => written
  | .string written => quoted written
  | .array items => '[' :: prettyItems depth true items ++ [']']
  | .object fields => '\x7b' :: prettyFields depth true fields ++ ['\x7d']

/-- Prints items, each after a comma unless it is the first, and the line end after the last. -/
def prettyItems (depth : Nat) (first : Bool) : List Value → List Char
  | [] => if first then [] else newLine depth
  | item :: rest =>
    (if first then [] else [',']) ++ newLine (depth + 1) ++ pretty (depth + 1) item ++
      prettyItems depth false rest

/-- Prints fields in the same way. -/
def prettyFields (depth : Nat) (first : Bool) : List (List Char × Value) → List Char
  | [] => if first then [] else newLine depth
  | (name, value) :: rest =>
    (if first then [] else [',']) ++ newLine (depth + 1) ++ quoted name ++ [':', ' '] ++
      pretty (depth + 1) value ++ prettyFields depth false rest

end

def Value.render (v : Value) : String := String.ofList (pretty 0 v)

end TagRegistry.Json
