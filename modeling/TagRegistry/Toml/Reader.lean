import TagRegistry.Toml.Moment
import TagRegistry.Toml.Number

/-! Values and statements of TOML documents.

A document is read as the list of its statements: assignments, and the headers of tables and of
elements of arrays of tables. What the statements build together is left to the reader of the
list. -/

namespace TagRegistry.Toml

/-- A value. Numbers, truth values and times have no content here. Entries of tables are under
the path of their dotted key. -/
inductive Value where
  | string (text : String)
  | plain
  | array (items : List Value)
  | table (entries : List (List String × Value))

/-- A line of a document that says something. -/
inductive Statement where
  | assign (key : List String) (value : Value)
  | table (key : List String)
  | element (key : List String)

def isBareChar (c : Char) : Bool := c.isAlphanum || c == '_' || c == '-'

/-- Reads one part of a key. -/
def simpleKey : Reader String
  | '"' :: cs => (lineString ('"' :: cs)).map fun (text, rest) => (String.ofList text, rest)
  | '\'' :: cs => (lineString ('\'' :: cs)).map fun (text, rest) => (String.ofList text, rest)
  | cs =>
    match cs.takeWhile isBareChar with
    | [] => none
    | name => some (String.ofList name, cs.dropWhile isBareChar)

/-- A key has less than so many parts. -/
def keyLimit : Nat := 80

/-- Reads a dotted key with the space around its parts, of at most `fuel` parts. -/
def keyParts : Nat → Reader (List String)
  | 0, _ => none
  | fuel + 1, cs => do
    let (part, cs) ← simpleKey (skipSpace cs)
    match skipSpace cs with
    | '.' :: rest => do
      let (parts, rest) ← keyParts fuel rest
      return (part :: parts, rest)
    | rest => return ([part], rest)

def key : Reader (List String) := keyParts (keyLimit - 1)

/-- Do two keys get in each other's way? They do when one is the other or leads through it. -/
def clashes (a b : List String) : Bool := a.isPrefixOf b || b.isPrefixOf a

/-- Are all keys of a table free of clashes? -/
def isUnambiguous : List (List String × Value) → Bool
  | [] => true
  | entry :: rest => (rest.all fun other => !clashes entry.1 other.1) && isUnambiguous rest

/-- Reads the items of an array after its bracket. A comma may follow the last one. -/
def arrayRest (item : Reader Value) : List Char → Reader (List Value)
  | [], _ => none
  | _ :: fuel, cs =>
    match skipBlank cs with
    | ']' :: rest => some ([], rest)
    | cs => do
      let (value, cs) ← item cs
      match skipBlank cs with
      | ',' :: rest => do
        let (values, rest) ← arrayRest item fuel rest
        return (value :: values, rest)
      | ']' :: rest => return ([value], rest)
      | _ => none

/-- Reads the entries of a table within braces; there is at least one. -/
def entriesRest (item : Reader Value) : List Char → Reader (List (List String × Value))
  | [], _ => none
  | _ :: fuel, cs => do
    let (key, cs) ← key cs
    let (value, cs) ← item (skipSpace (← after '=' cs))
    match skipSpace cs with
    | ',' :: rest => do
      let (entries, rest) ← entriesRest item fuel rest
      return ((key, value) :: entries, rest)
    | '\x7d' :: rest => return ([(key, value)], rest)
    | _ => none

/-- Reads a table within braces, after the first one. -/
def tableRest (item : Reader Value) (cs : List Char) : Option (Value × List Char) :=
  match skipSpace cs with
  | '\x7d' :: rest => some (.table [], rest)
  | _ => do
    let (entries, rest) ← entriesRest item cs cs
    if isUnambiguous entries then some (.table entries, rest) else none

def numeric (cs : List Char) : Option (Value × List Char) :=
  ((moment cs).getD (number cs)).map fun rest => (.plain, rest)

/-- Reads a value in which arrays and tables nest at most `depth` deep. -/
def value : Nat → Reader Value
  | _, '"' :: cs => (anyString ('"' :: cs)).map fun (text, rest) => (.string (String.ofList text), rest)
  | _, '\'' :: cs =>
    (anyString ('\'' :: cs)).map fun (text, rest) => (.string (String.ofList text), rest)
  | depth + 1, '[' :: cs =>
    (arrayRest (value depth) cs cs).map fun (items, rest) => (.array items, rest)
  | depth + 1, '\x7b' :: cs => tableRest (value depth) cs
  | _, 't' :: 'r' :: 'u' :: 'e' :: cs => some (.plain, cs)
  | _, 'f' :: 'a' :: 'l' :: 's' :: 'e' :: cs => some (.plain, cs)
  | _, cs => numeric cs

def depthLimit : Nat := 79

def header : Reader Statement
  | '[' :: cs => do
    let (key, cs) ← key cs
    return (.element key, ← after ']' (← after ']' cs))
  | cs => do
    let (key, cs) ← key cs
    return (.table key, ← after ']' cs)

def assignment : Reader Statement := fun cs => do
  let (key, cs) ← key cs
  let (value, cs) ← value depthLimit (skipSpace (← after '=' cs))
  return (.assign key value, cs)

/-- Reads a document line by line. -/
def statements : Nat → List Char → Option (List Statement)
  | 0, _ => none
  | fuel + 1, cs =>
    match skipSpace cs with
    | [] => some []
    | '#' :: cs => (lineEnd? ('#' :: cs)).bind (statements fuel)
    | '[' :: cs => do
      let (s, cs) ← header cs
      return s :: (← statements fuel (← lineEnd? cs))
    | c :: cs =>
      match newline? (c :: cs) with
      | some rest => statements fuel rest
      | none => do
        let (s, cs) ← assignment (c :: cs)
        return s :: (← statements fuel (← lineEnd? cs))

/-- Drops a byte order mark. -/
def dropMark : List Char → List Char
  | '\uFEFF' :: cs => cs
  | cs => cs

def parse? (text : String) : Option (List Statement) :=
  let cs := dropMark text.toList
  statements (cs.length + 1) cs

end TagRegistry.Toml
