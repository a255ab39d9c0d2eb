import TagRegistry.Text.Split
import TagRegistry.Version.Basic

/-! Reading a version text.

    [v] NUM ("." NUM)* ["-" IDENT ("." IDENT)*] ["+" IDENT ("." IDENT)*]

`NUM` is a run of ASCII digits with a value below 2^64, `IDENT` a run of ASCII letters,
digits and hyphens. The metadata starts at the first `+`, the prerelease at the first `-`
before it. Parts are checked from the right: metadata, prerelease, segments. -/

namespace TagRegistry

open Text

inductive VersionError where
  | empty
  | segment (input segment : String)
  | prerelease (text : String)
  | metadata (text : String)
  deriving DecidableEq, Repr

def VersionError.message : VersionError → String
  | .empty => "empty version string"
  | .segment input part => s!"invalid numeric segment '{part}' in version '{input}'"
  | .prerelease text => s!"invalid prerelease '{text}'"
  | .metadata text => s!"invalid build metadata '{text}'"

namespace Version

/-- Drops one leading `v`. -/
def dropMark : List Char → List Char
  | 'v' :: rest => rest
  | cs => cs

/-- Splits off the identifier list that follows the first `mark`, refusing with `refuse`. -/
def splitPart (mark : Char) (refuse : String → VersionError) (cs : List Char) :
    Except VersionError (List Char × Option Identifiers) :=
  match cutFirst mark cs with
  | none => .ok (cs, none)
  | some (before, after) =>
    match Identifiers.ofChars? after with
    | none => .error (refuse (String.ofList after))
    | some ids => .ok (before, some ids)

/-- Reads segments from the left; the first bad one is named. -/
def readSegments (input : String) : List (List Char) → Except VersionError (List UInt64)
  | [] => .ok []
  | cs :: rest =>
    match Decimal.word? cs with
    | none => .error (.segment input (String.ofList cs))
    | some n => do
      let ns ← readSegments input rest
      return n :: ns

def parse (input : String) : Except VersionError Version := do
  let cs := dropMark input.toList
  if cs.isEmpty then throw .empty
  let (rest, metadata) ← splitPart '+' .metadata cs
  let (core, prerelease) ← splitPart '-' .prerelease rest
  let segments ← readSegments input (core.splitOn '.')
  return ⟨padSegments segments, prerelease, metadata, three_le_padSegments segments⟩

end Version

end TagRegistry
