import TagRegistry.Text.Decimal

/-! Module versions as they appear in version tags, and their canonical text.

A version is at least three numeric segments, an optional list of prerelease
identifiers and an optional list of build metadata identifiers. The lists keep the
text they were written with; that the text is well formed is part of the type, so
everything a `Version` can hold can also be written in a tag. -/

namespace TagRegistry

open Text

/-- Identifiers are made of ASCII letters, digits and hyphens. -/
def isIdentifierChar (c : Char) : Bool := c.isAlphanum || c == '-'

/-- Non-empty identifiers separated by dots. -/
def isIdentifierList (cs : List Char) : Bool :=
  (cs.splitOn '.').all fun identifier => !identifier.isEmpty && identifier.all isIdentifierChar

/-- A dot-separated list of identifiers. -/
structure Identifiers where
  chars : List Char
  legal : isIdentifierList chars = true
  deriving DecidableEq, Repr

namespace Identifiers

/-- Reads a text that is an identifier list. -/
def ofChars? (cs : List Char) : Option Identifiers :=
  if h : isIdentifierList cs = true then some ⟨cs, h⟩ else none

def text (ids : Identifiers) : String := String.ofList ids.chars

/-- The identifiers themselves. -/
def toList (ids : Identifiers) : List (List Char) := ids.chars.splitOn '.'

end Identifiers

/-- A version. Two versions that are equal field by field have the same canonical text;
equality in precedence is coarser and is decided by `Version.compare`. -/
structure Version where
  segments : List UInt64
  prerelease : Option Identifiers
  metadata : Option Identifiers
  three_le_segments : 3 ≤ segments.length
  deriving DecidableEq, Repr

namespace Version

def release (major minor patch : UInt64) : Version :=
  ⟨[major, minor, patch], none, none, by simp⟩

def isPrerelease (v : Version) : Bool := v.prerelease.isSome

/-- Fills up with zeros to three segments. -/
def padSegments (segments : List UInt64) : List UInt64 :=
  segments ++ List.replicate (3 - segments.length) 0

theorem three_le_padSegments (segments : List UInt64) : 3 ≤ (padSegments segments).length := by
  simp [padSegments]; omega

def renderSegments (segments : List UInt64) : List Char :=
  ['.'].intercalate (segments.map fun n => Decimal.digits n.toNat)

/-- An identifier list after the mark that introduces it. -/
def renderPart (mark : Char) : Option Identifiers → List Char
  | none => []
  | some ids => mark :: ids.chars

/-- The canonical text: all segments, then `-` and the prerelease, then `+` and the metadata. -/
def chars (v : Version) : List Char :=
  renderSegments v.segments ++ renderPart '-' v.prerelease ++ renderPart '+' v.metadata

def render (v : Version) : String := String.ofList v.chars

instance : ToString Version := ⟨render⟩

end Version

end TagRegistry
