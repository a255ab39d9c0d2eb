import TagRegistry.Text.Split
import TagRegistry.Text.Utf8

/-! Slash-separated paths. -/

namespace TagRegistry.Path

open Bytes

inductive Component where
  | root
  | current
  | parent
  | normal (name : Bytes)
  deriving DecidableEq, Repr

/-- What a piece between two slashes means after the first one: empty pieces and `.` mean
nothing. -/
def step? (piece : Bytes) : Option Component :=
  if piece = [] ∨ piece = [dot] then none
  else if piece = [dot, dot] then some .parent
  else some (.normal piece)

/-- The steps of a path. A leading slash is the root, a leading `.` the current directory. -/
def components (path : Bytes) : List Component :=
  match path.splitOn slash with
  | [] => []
  | first :: rest =>
    let tail := rest.filterMap step?
    if first = [] then (if rest = [] then [] else .root :: tail)
    else if first = [dot] then .current :: tail
    else (step? first).toList ++ tail

/-- What a path starts with, its root or a leading `.`, and the rest. -/
def splitHead (path : Bytes) : Bytes × Bytes :=
  match path.splitOn slash with
  | [] => ([], [])
  | first :: rest =>
    if first = [] ∧ rest ≠ [] then ([slash], path.drop 1)
    else if first = [dot] then ([dot], path.drop 1)
    else ([], path)

/-- Drops the pieces at the end that mean nothing. -/
def trimPieces (pieces : List Bytes) : List Bytes :=
  (pieces.reverse.dropWhile fun piece => piece == [] || piece == [dot]).reverse

/-- The directory that holds what a path leads to; the text is not normalised any further. The
root and the empty path have none. -/
def parent? (path : Bytes) : Option Bytes :=
  let (head, body) := splitHead path
  match (trimPieces (body.splitOn slash)).reverse with
  | _ :: before => some (head ++ [slash].intercalate (trimPieces before.reverse))
  | [] => if head = [dot] then some [] else none

def isAbsolute (path : Bytes) : Bool := path.head? == some slash

def endsWithSlash (path : Bytes) : Bool := path.getLast? == some slash

/-- A path below a directory. An absolute path stays as it is, an empty base adds nothing. -/
def join (base path : Bytes) : Bytes :=
  if isAbsolute path then path
  else if base.isEmpty || endsWithSlash base then base ++ path
  else base ++ [slash] ++ path

/-- Does a file name have the given extension? What a leading dot introduces is none. -/
def hasExtension (extension name : Bytes) : Bool :=
  match Text.cutLast dot name with
  | some (stem, found) => !stem.isEmpty && found == extension
  | none => false

/-- A path as text, with U+FFFD for what is none. -/
def display (path : Bytes) : String := Utf8.decodeLossy path

end TagRegistry.Path
