import TagRegistry.Deflate.Bits

/-! The symbols of a compressed block.

A symbol is an octet or a copy of octets that came before. The lengths and the distances of
copies fall into classes; a class has a symbol number, and extra bits tell its members apart. -/

namespace TagRegistry.Deflate

inductive Symbol where
  | literal (octet : UInt8)
  /-- So many octets, from so far back. -/
  | copy (length distance : Nat)
  deriving DecidableEq, Repr

/-- A number as its class, with the extra bits. -/
structure Classed where
  number : Nat
  extra : List Bool
  deriving DecidableEq, Repr

/-- The number that ends a block. The classes of lengths follow it. -/
def endNumber : Nat := 256

def shortestCopy : Nat := 3

def longestCopy : Nat := 258

/-- The class of a length. Past the first eight lengths, four classes share a number of extra
bits; the longest length has a class of its own. -/
def classOfLength (length : Nat) : Classed :=
  let n := length - shortestCopy
  if length = longestCopy then ⟨endNumber + 29, []⟩
  else if n < 8 then ⟨endNumber + 1 + n, []⟩
  else
    let width := n.log2 - 2
    ⟨endNumber + 1 + 4 * (width + 1) + (n >>> width) % 4, lowBits width n⟩

/-- The class of a distance. Past the first four distances, two classes share a number of extra
bits. -/
def classOfDistance (distance : Nat) : Classed :=
  let n := distance - 1
  if n < 4 then ⟨n, []⟩
  else
    let width := n.log2 - 1
    ⟨2 * (width + 1) + (n >>> width) % 2, lowBits width n⟩

def readLength (number : Nat) (s : BitSource) : Option (Nat × BitSource) :=
  let n := number - (endNumber + 1)
  if n < 8 then some (shortestCopy + n, s)
  else if n = 28 then some (longestCopy, s)
  else if 28 < n then none
  else do
    let width := n / 4 - 1
    let (extra, s) ← s.number? width
    return (shortestCopy + ((4 + n % 4) <<< width) + extra, s)

def readDistance (number : Nat) (s : BitSource) : Option (Nat × BitSource) :=
  if number < 4 then some (number + 1, s)
  else if 29 < number then none
  else do
    let width := number / 2 - 1
    let (extra, s) ← s.number? width
    return (1 + ((2 + number % 2) <<< width) + extra, s)

end TagRegistry.Deflate
