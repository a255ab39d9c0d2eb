import TagRegistry.Deflate.Bits

/-! Prefix codes.

A code is given by the length of the code word of each symbol, zero for a symbol without one.
Code words of one length are consecutive numbers in the order of the symbols, and shorter ones
come first, so the lengths say everything. A code word is written highest bit first. -/

namespace TagRegistry.Deflate

/-- How many symbols have each length from one up to `limit`. -/
def lengthCounts (limit : Nat) (lengths : List Nat) : List Nat :=
  (List.range limit).map fun l => lengths.count (l + 1)

/-! ## Reading -/

structure PrefixCode where
  /-- How many code words there are of each length from one up. -/
  counts : List Nat
  /-- The symbols in the order of their code words. -/
  symbols : Array Nat
  deriving DecidableEq, Repr

/-- The longest code word of the format. -/
def longestWord : Nat := 15

namespace PrefixCode

def ofLengths (lengths : List Nat) : PrefixCode where
  counts := lengthCounts longestWord lengths
  symbols := ((List.range longestWord).flatMap fun l =>
    lengths.zipIdx.filterMap fun (length, symbol) =>
      if length = l + 1 then some symbol else none).toArray

/-- Reads a symbol, one bit after another. `word` is what has been read, `first` half of the
first code word of the next length, and `index` the number of shorter code words. -/
def readFrom (symbols : Array Nat) :
    List Nat → Nat → Nat → Nat → BitSource → Option (Nat × BitSource)
  | [], _, _, _, _ => none
  | count :: counts, word, first, index, s => do
    let (b, s) ← s.bit?
    let word := 2 * word + b.toNat
    let first := 2 * first
    if word < first + count then
      let symbol ← symbols[index + (word - first)]?
      return (symbol, s)
    else readFrom symbols counts word (first + count) (index + count) s

def read (c : PrefixCode) (s : BitSource) : Option (Nat × BitSource) :=
  readFrom c.symbols c.counts 0 0 0 s

end PrefixCode

/-! ## Writing -/

/-- The first code word of each length from one up. -/
def firstWords : Nat → List Nat → List Nat
  | _, [] => []
  | first, count :: counts => first :: firstWords (2 * (first + count)) counts

/-- The code words of all symbols, `next` being the next free code word of each length. -/
def assignWords : Array Nat → List Nat → List (List Bool)
  | _, [] => []
  | next, 0 :: lengths => [] :: assignWords next lengths
  | next, (l + 1) :: lengths =>
    let word := next.getD l 0
    (lowBits (l + 1) word).reverse :: assignWords (next.setIfInBounds l (word + 1)) lengths

def codeWords (lengths : List Nat) : Array (List Bool) :=
  (assignWords (firstWords 0 (lengthCounts longestWord lengths)).toArray lengths).toArray

/-! ## Choosing lengths

Symbols that occur often get short code words. The lengths come from the tree in which, time and
again, the two lightest parts have been joined. -/

inductive WordTree where
  | leaf
  | node (left right : WordTree)
  deriving DecidableEq, Repr

namespace WordTree

/-- How deep the leaves are, for a tree at some depth. -/
def depths : Nat → WordTree → List Nat
  | depth, .leaf => [depth]
  | depth, .node left right => depths (depth + 1) left ++ depths (depth + 1) right

/-- Takes the lighter one of the first leaf and the first joined part; of two equal ones, the
leaf. -/
def takeLighter : List Nat → List (Nat × WordTree) →
    Option ((Nat × WordTree) × List Nat × List (Nat × WordTree))
  | [], [] => none
  | weight :: leaves, [] => some ((weight, .leaf), leaves, [])
  | [], part :: parts => some (part, [], parts)
  | weight :: leaves, part :: parts =>
    if part.1 < weight then some (part, weight :: leaves, parts)
    else some ((weight, .leaf), leaves, part :: parts)

/-- Joins leaves, lightest first, and parts into one tree. `fuel` bounds the number of joins. -/
def join : Nat → List Nat → List (Nat × WordTree) → WordTree
  | 0, _, _ => .leaf
  | fuel + 1, leaves, parts =>
    match takeLighter leaves parts with
    | none => .leaf
    | some (a, leaves, parts) =>
      match takeLighter leaves parts with
      | none => a.2
      | some (b, leaves, parts) =>
        join fuel leaves (parts ++ [(a.1 + b.1, .node a.2 b.2)])

end WordTree

/-- Makes a code word of a shorter length into two of the next one, seen from the longest
length down. -/
def splitWord : List Nat → List Nat
  | longer :: 0 :: counts => longer :: splitWord (0 :: counts)
  | longer :: (n + 1) :: counts => (longer + 2) :: n :: counts
  | counts => counts

/-- Takes one of the longest code words away and finds another place for it. -/
def shortenWord : List Nat → List Nat
  | longest :: counts => splitWord ((longest - 1) :: counts)
  | [] => []

/-- What code words take up, in units of the longest length, that length first. -/
def spaceTaken : Nat → List Nat → Nat
  | _, [] => 0
  | unit, count :: counts => unit * count + spaceTaken (2 * unit) counts

/-- How many code words there are of each length from one up to `limit`, for leaves that may be
deeper. -/
def limitedCounts (limit : Nat) (depths : List Nat) : List Nat :=
  let counts := (lengthCounts limit (depths.map (min limit))).reverse
  if depths.length ≤ 1 then counts.reverse
  else ((List.range (spaceTaken 1 counts - 1 <<< limit)).foldl
    (fun counts _ => shortenWord counts) counts).reverse

/-- The symbols that occur, the rarest first, of equally rare ones the first. -/
def byFrequency (frequencies : List Nat) : List (Nat × Nat) :=
  (frequencies.zipIdx.filter fun item => item.1 != 0).mergeSort fun a b => a.1 ≤ b.1

/-- The lengths of code words, at most `limit`, for symbols of these frequencies. A symbol that
occurs alone has a word too. -/
def chooseLengths (limit : Nat) (frequencies : List Nat) : List Nat :=
  let used := byFrequency frequencies
  let depths :=
    if used.length ≤ 1 then used.map fun _ => 1
    else (WordTree.join used.length (used.map Prod.fst) []).depths 0
  let lengths := (limitedCounts limit depths).zipIdx.flatMap fun (count, l) =>
    List.replicate count (l + 1)
  (((used.reverse.map Prod.snd).zip lengths).foldl
    (fun (chosen : Array Nat) (symbol, length) => chosen.setIfInBounds symbol length)
    (Array.replicate frequencies.length 0)).toList

end TagRegistry.Deflate
