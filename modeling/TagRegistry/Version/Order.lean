import TagRegistry.Version.Basic

/-! Precedence of versions.

Segments compare as numbers, missing ones count as zero. A prerelease ranks below its
release, and two prereleases compare identifier by identifier: numbers below 2^64 by value
and below all other identifiers, the others by the order of their characters, a list that
runs out first below the longer one. Build metadata does not count. -/

namespace TagRegistry

open Text

namespace Version

/-- Compares segment by segment as if both lists went on with zeros. -/
def compareSegments : List UInt64 → List UInt64 → Ordering
  | [], ys => if ys.all (· == 0) then .eq else .lt
  | x :: xs, [] => if (x :: xs).all (· == 0) then .eq else .gt
  | x :: xs, y :: ys => (compare x y).then (compareSegments xs ys)

def compareIdentifier (x y : List Char) : Ordering :=
  match Decimal.word? x, Decimal.word? y with
  | some m, some n => compare m n
  | some _, none => .lt
  | none, some _ => .gt
  | none, none => compare x y

/-- No prerelease at all ranks highest. -/
def comparePrerelease : Option Identifiers → Option Identifiers → Ordering
  | none, none => .eq
  | some _, none => .lt
  | none, some _ => .gt
  | some x, some y => List.compareLex compareIdentifier x.toList y.toList

/-- Precedence. -/
protected def compare (a b : Version) : Ordering :=
  (compareSegments a.segments b.segments).then (comparePrerelease a.prerelease b.prerelease)

/-- Neither version precedes the other. -/
def equivalent (a b : Version) : Bool := Version.compare a b == .eq

/-- Does `a` rank at least as high as `b`? -/
def atLeast (a b : Version) : Bool := (Version.compare b a).isLE

/-- Sorts from low to high; versions of equal precedence keep their order. -/
def sort (versions : List Version) : List Version :=
  versions.mergeSort fun a b => (Version.compare a b).isLE

end Version

end TagRegistry
