import TagRegistry.Repository.Object

/-! The settings in a repository's own configuration file.

A line is a section in brackets, a variable with or without a value, or a comment. A value may be
in quotes, and a backslash at its end goes on in the next line. The names of sections and
variables are the same in either case of their letters. -/

namespace TagRegistry

open Bytes (ascii)

/-- The value of each setting, none if it has none, in the order of the file. -/
abbrev Settings := List (Bytes × Option Bytes)

namespace Settings

def lower (b : UInt8) : UInt8 := if 65 ≤ b && b ≤ 90 then b + 32 else b

/-- Letters, digits and the hyphen. -/
def isNameOctet (b : UInt8) : Bool :=
  (97 ≤ lower b && lower b ≤ 122) || (48 ≤ b && b ≤ 57) || b == 45

/-- Reads the quoted part of a section's name, up to the closing quote. -/
def quotedName? : Bytes → Option (Bytes × Bytes)
  | 34 :: rest => some ([], rest)
  | 92 :: b :: rest => (quotedName? rest).map fun (name, rest) => (b :: name, rest)
  | b :: rest => (quotedName? rest).map fun (name, rest) => (b :: name, rest)
  | [] => none

/-- Reads a section's name behind the opening bracket, and what follows the closing one. -/
def sectionName? (bs : Bytes) : Option (Bytes × Bytes) :=
  let (name, rest) := bs.span fun b => isNameOctet b || b == 46
  let name := name.map lower
  match rest with
  | 93 :: rest => if name.isEmpty then none else some (name, rest)
  | b :: rest =>
    if Bytes.isSpace b then
      match rest.dropWhile Bytes.isSpace with
      | 34 :: rest => do
        let (inner, rest) ← quotedName? rest
        match rest with
        | 93 :: rest => some (name ++ 46 :: inner, rest)
        | _ => none
      | _ => none
    else none
  | [] => none

/-- Cuts a comment off a line. `quotes` is the number of quotes so far, and `slashes` that of
backslashes right before. -/
def withoutComment : Nat → Nat → Bytes → Bytes
  | _, _, [] => []
  | quotes, slashes, b :: bs =>
    if b == 34 && slashes == 0 then b :: withoutComment (quotes + 1) 0 bs
    else if (b == 59 || b == 35) && quotes % 2 == 0 && slashes % 2 == 0 then []
    else b :: withoutComment quotes (if b == 92 then slashes + 1 else 0) bs

/-- What an octet after a backslash stands for. -/
def escaped? (b : UInt8) : Option UInt8 :=
  if b == 110 then some 10
  else if b == 116 then some 9
  else if b == 98 then some 8
  else if b == 34 || b == 92 then some b
  else none

/-- Reads a value on one line, and whether it goes on in the next one. -/
def value? : Bytes → Option (Bytes × Bool)
  | [] => some ([], false)
  | [92] => some ([], true)
  | 92 :: b :: bs => do
    let b ← escaped? b
    let (value, more) ← value? bs
    return (b :: value, more)
  | 34 :: bs => value? bs
  | b :: bs => (value? bs).map fun (value, more) => (b :: value, more)

/-- Reads a value that starts on a line, and returns the lines after it. -/
def valueLines? : Bytes → List Bytes → Option (Bytes × List Bytes)
  | line, lines => do
    let (value, more) ← value? (Bytes.trimEnd (withoutComment 0 0 line))
    match more, lines with
    | true, next :: lines => do
      let (rest, lines) ← valueLines? next lines
      return (value ++ rest, lines)
    | _, lines => return (value, lines)
termination_by _ lines => lines.length

/-- Reads the setting on a line, and returns the lines after it. -/
def setting? (line : Bytes) (lines : List Bytes) :
    Option (Bytes × Option Bytes × List Bytes) :=
  let (name, rest) := line.span isNameOctet
  if name.isEmpty then none
  else
    let name := name.map lower
    match Bytes.trimEnd (withoutComment 0 0 (rest.dropWhile Bytes.isSpace)) with
    | [] => some (name, none, lines)
    | 61 :: _ => do
      let (value, lines) ← valueLines? ((rest.dropWhile Bytes.isSpace).drop 1) lines
      return (name, some (value.dropWhile Bytes.isSpace), lines)
    | _ => none

/-- Reads the lines after the start of a section. `fuel` bounds the number of items. -/
def readLines? : Nat → Bytes → List Bytes → Option Settings
  | _, _, [] => some []
  | 0, _, _ => none
  | fuel + 1, inside, line :: lines =>
    match line.dropWhile Bytes.isSpace with
    | [] => readLines? fuel inside lines
    | b :: rest =>
      if b == 91 then do
        let (name, rest) ← sectionName? rest
        readLines? fuel (name ++ [46]) (rest :: lines)
      else if b == 59 || b == 35 then readLines? fuel inside lines
      else do
        let (name, value, lines) ← setting? (b :: rest) lines
        let settings ← readLines? fuel inside lines
        return (inside ++ name, value) :: settings

/-- A mark that some editors put in front of a text. -/
def byteOrderMark : Bytes := [0xEF, 0xBB, 0xBF]

/-- Reads a file; none if it is malformed. -/
def read? (content : Bytes) : Option Settings :=
  let text := (Text.dropFront? byteOrderMark content).getD content
  readLines? (text.length + 2) [] ((text.splitOn 10).map Bytes.beforeNul)

/-- The last value of a setting. -/
def get? (s : Settings) (name : String) : Option (Option Bytes) := s.reverse.lookup (ascii name)

def whole? (value : Bytes) : Option Int :=
  match leadingNumber? 10 value with
  | some (n, []) => some n
  | _ => none

/-- Is this value, or that there is none, a truth value? -/
def isTruthValue : Option Bytes → Bool
  | none => true
  | some value =>
    ["true", "yes", "on", "false", "no", "off", ""].any (fun word => ascii word == value.map lower) ||
      (whole? value).isSome

/-- The extensions that do not change how a repository is read. -/
def knownExtensions : List String :=
  ["extensions.noop", "extensions.objectformat", "extensions.worktreeconfig",
    "extensions.preciousobjects"]

/-- Are all extensions known, and are objects named by 40 digits? -/
def hasKnownExtensions (s : Settings) : Bool :=
  (s.all fun setting => !(ascii "extensions.").isPrefixOf setting.1 ||
    knownExtensions.any fun name => ascii name == setting.1) &&
  match s.get? "extensions.objectformat" with
  | none => true
  | some value => value == some (ascii "sha1")

/-- Can a repository with these settings be read? The format has version 0, or version 1 with
known extensions. -/
def isReadable (s : Settings) : Bool :=
  ((s.get? "core.bare").all isTruthValue) &&
  match s.get? "core.repositoryformatversion" with
  | none => true
  | some value =>
    match value.bind whole? with
    | some 0 => true
    | some 1 => s.hasKnownExtensions
    | _ => false

end Settings

end TagRegistry
