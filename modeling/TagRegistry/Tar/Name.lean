import TagRegistry.Path
import TagRegistry.Tar.Header
import TagRegistry.Text.Utf8

/-! Names and link targets in tar headers.

A name is copied into its field component by component; `fill` stops at the first component
that is not allowed or does not fit and leaves what it has copied. A name of at least 100
octets that cannot be copied goes into a record of its own in front of the member, and the
field then holds what fits of it. -/

namespace TagRegistry.Tar

open Bytes (slash dot)
open TagRegistry.Path (Component)

inductive NameFault where
  | absolute
  | parentDirectory
  | noComponent
  | tooLong
  | nulOctet
  deriving DecidableEq, Repr

def NameFault.message : NameFault → String
  | .absolute => "paths in archives must be relative"
  | .parentDirectory => "paths in archives must not have `..`"
  | .noComponent => "paths in archives must have at least one component"
  | .tooLong => "provided value is too long"
  | .nulOctet => "provided value contains a nul byte"

/-- The two fields that hold a path. -/
inductive NameRole where
  | path
  | linkName
  deriving DecidableEq, Repr

def NameRole.label : NameRole → String
  | .path => "path"
  | .linkName => "link name"

/-- A refused name or target. `shown` is the member's name field as far as it was filled. -/
structure NameError where
  role : NameRole
  fault : NameFault
  shown : Bytes
  deriving DecidableEq, Repr

def NameError.message (e : NameError) : String :=
  s!"{e.fault.message} when setting {e.role.label} for {Utf8.decodeLossy e.shown}"

/-- What is to be copied next, or why nothing more is. -/
abbrev Piece := Except NameFault Bytes

/-- Puts slashes between words; none after a word that is a slash itself, none before a
refusal. -/
def joinWords (afterWord : Bool) : List Piece → List Piece
  | [] => []
  | .error fault :: _ => [.error fault]
  | .ok word :: rest =>
    (if afterWord then [.ok [slash]] else []) ++
      .ok word :: joinWords (afterWord || word != [slash]) rest

/-- The pieces of a path of which the words are known. A trailing slash is kept. -/
def piecesOf (path : Bytes) (words : List Piece) : List Piece :=
  if words.isEmpty then [.error .noComponent]
  else joinWords false words ++ if Path.endsWithSlash path then [.ok [slash]] else []

/-- A member's name is relative and never climbs; in a name that was `cut` short the last
component may be the front of another one. `.` counts only if it stands alone. -/
def nameWords (cut alone : Bool) : List Component → List Piece
  | [] => []
  | .root :: rest => .error .absolute :: nameWords cut alone rest
  | .parent :: rest =>
    (if cut && rest.isEmpty then .ok [dot, dot] else .error .parentDirectory) ::
      nameWords cut alone rest
  | .current :: rest =>
    if alone then .ok [dot] :: nameWords cut alone rest else nameWords cut alone rest
  | .normal name :: rest => .ok name :: nameWords cut alone rest

def namePieces (cut : Bool) (path : Bytes) : List Piece :=
  let steps := Path.components path
  piecesOf path (nameWords cut (steps.length == 1) steps)

/-- A link may point anywhere. -/
def linkWord : Component → Piece
  | .root => .ok [slash]
  | .current => .ok [dot]
  | .parent => .ok [dot, dot]
  | .normal name => .ok name

def linkPieces (target : Bytes) : List Piece :=
  piecesOf target ((Path.components target).map linkWord)

/-- A field while it is filled: `used` octets are settled, the others are what was there
before. -/
structure Field where
  octets : Bytes
  used : Nat
  deriving DecidableEq, Repr

namespace Field

def blank : Field := ⟨List.replicate fieldSize 0, 0⟩

/-- Starts again from the front, without wiping. -/
def rewind (f : Field) : Field := { f with used := 0 }

/-- What a reader of the field sees: everything up to the first NUL. -/
def shown (f : Field) : Bytes := f.octets.takeWhile (· != 0)

/-- Copies a piece, closed by a NUL if there is room for it. -/
def copy (f : Field) (piece : Bytes) : Except NameFault Field :=
  if fieldSize < f.used + piece.length then .error .tooLong
  else if piece.contains 0 then .error .nulOctet
  else
    let closed := f.octets.take f.used ++ piece ++ [0]
    .ok ⟨(closed ++ f.octets.drop closed.length).take fieldSize, f.used + piece.length⟩

/-- Copies pieces until one is refused. -/
def fill (f : Field) : List Piece → Field × Option NameFault
  | [] => (f, none)
  | .error fault :: _ => (f, some fault)
  | .ok piece :: rest =>
    match f.copy piece with
    | .error fault => (f, some fault)
    | .ok g => g.fill rest

end Field

/-- How a path is recorded: what its field holds, and whether it needs a record of its own. -/
structure Recorded where
  field : Bytes
  isLong : Bool
  deriving DecidableEq, Repr

/-- Records the name of a member. -/
def recordName (path : Bytes) : Except NameError Recorded :=
  match Field.blank.fill (namePieces false path) with
  | (f, none) => .ok ⟨f.octets, false⟩
  | (f, some fault) =>
    if path.length < fieldSize then .error ⟨.path, fault, f.shown⟩
    else
      match f.rewind.fill (namePieces true (Utf8.validPrefix (path.take fieldSize))) with
      | (g, none) => .ok ⟨g.octets, true⟩
      | (g, some fault) => .error ⟨.path, fault, g.shown⟩

/-- Records the target of a link, for a member whose name field is given. -/
def recordLink (nameField target : Bytes) : Except NameError Recorded :=
  match Field.blank.fill (linkPieces target) with
  | (f, none) => .ok ⟨f.octets, false⟩
  | (f, some fault) =>
    if target.length < fieldSize then
      .error ⟨.linkName, fault, nameField.takeWhile (· != 0)⟩
    else .ok ⟨f.octets, true⟩

end TagRegistry.Tar
