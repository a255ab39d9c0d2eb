import TagRegistry.Bytes

/-! The names that git accepts for references.

Names are read leniently in one respect only: several slashes in a row count as one. -/

namespace TagRegistry.RefName

open Bytes (slash dot)

/-- Characters that no reference name holds: controls, the blank and the marks of patterns and
revisions. -/
def isForbidden (b : UInt8) : Bool := b ≤ 32 || b == 127 || (Bytes.ascii "~^:\\?[*").contains b

/-- Does some octet `x` stand right before an octet `y`? -/
def hasPair (x y : UInt8) : Bytes → Bool
  | a :: b :: rest => (a == x && b == y) || hasPair x y (b :: rest)
  | _ => false

/-- May this be one segment of a name? It does not start with a dot and holds no `..`, no `@` in
front of a brace and no `.lock` at its end. -/
def isSegment (segment : Bytes) : Bool :=
  segment.head? != some dot && !segment.any isForbidden && !hasPair dot dot segment &&
    !hasPair 64 123 segment && !(Bytes.ascii ".lock").isSuffixOf segment

/-- Capital letters, perhaps with underscores inside. -/
def isAllCaps (segment : Bytes) : Bool :=
  segment.all (fun b => (65 ≤ b && b ≤ 90) || b == 95) && segment.head? != some 95 &&
    segment.getLast? != some 95

/-- The longest name, in octets. -/
def limit : Nat := 1023

/-- The name with single slashes, if it is a legal one. A name of one segment has to be all
capitals, and the first of several must not be. -/
def normalize? (name : Bytes) : Option Bytes :=
  let segments := (name.splitOn slash).filter fun segment => !segment.isEmpty
  let whole := [slash].intercalate segments
  if name.head? = some slash ∨ name.getLast? = some slash ∨ name.getLast? = some dot then none
  else if !segments.all isSegment || limit < whole.length then none
  else
    match segments with
    | [] => none
    | [only] => if isAllCaps only then some whole else none
    | first :: _ => if isAllCaps first then none else some whole

/-- Does the reference belong to one working tree, and not to all that share a repository? -/
def isOwn (name : Bytes) : Bool :=
  !(Bytes.ascii "refs/").isPrefixOf name || (Bytes.ascii "refs/bisect/").isPrefixOf name

end TagRegistry.RefName
