import TagRegistry.Deflate.PrefixCode
import TagRegistry.Deflate.Symbol

/-! The blocks of a compressed stream, as bits.

A block says whether it is the last one and of which form it is. A stored block holds octets as
they are. The other forms hold symbols: with fixed codes, or with codes that the block describes
first. The description is a list of code lengths, in which runs are written short, in a prefix
code of its own. -/

namespace TagRegistry.Deflate

/-- The forms of blocks, two bits each. -/
def storedForm : List Bool := lowBits 2 0

def fixedForm : List Bool := lowBits 2 1

def dynamicForm : List Bool := lowBits 2 2

def literalCount : Nat := 286

def distanceCount : Nat := 30

/-! ## Symbols -/

def fixedLiteralLengths : List Nat :=
  List.replicate 144 8 ++ List.replicate 112 9 ++ List.replicate 24 7 ++ List.replicate 8 8

def fixedDistanceLengths : List Nat := List.replicate 32 5

def Symbol.bits (literals distances : Array (List Bool)) : Symbol → List Bool
  | .literal octet => literals.getD octet.toNat []
  | .copy length distance =>
    let l := classOfLength length
    let d := classOfDistance distance
    literals.getD l.number [] ++ l.extra ++ distances.getD d.number [] ++ d.extra

/-- The bits of symbols and of the end of their block. -/
def symbolBits (literals distances : Array (List Bool)) (symbols : Array Symbol) : List Bool :=
  symbols.foldr (fun symbol rest => symbol.bits literals distances ++ rest)
    (literals.getD endNumber [])

/-- The body of a block with the fixed codes. -/
def fixedBody (symbols : Array Symbol) : List Bool :=
  fixedForm ++
    symbolBits (codeWords fixedLiteralLengths) (codeWords fixedDistanceLengths) symbols

/-! ## Descriptions of codes -/

/-- An item of a description: a length, or a run of lengths with the bits that count it. -/
structure LengthItem where
  number : Nat
  extra : List Bool
  deriving DecidableEq, Repr

namespace LengthItem

def single (length : Nat) : LengthItem := ⟨length, []⟩

def zeros (count : Nat) : List LengthItem :=
  if count < 3 then List.replicate count (single 0)
  else if count ≤ 10 then [⟨17, lowBits 3 (count - 3)⟩]
  else [⟨18, lowBits 7 (count - 11)⟩]

/-- A run that repeats the length in front of it. -/
def repeats (length count : Nat) : List LengthItem :=
  if count < 3 then List.replicate count (single length)
  else [⟨16, lowBits 2 (count - 3)⟩]

end LengthItem

/-- The longest run of zeros, and the longest repetition of another length. -/
def zerosLimit : Nat := 138

def repeatsLimit : Nat := 6

/-- Writes lengths as items, behind a run of `zeros` zeros or of `again` further lengths equal to
`last`. -/
def lengthItems : Nat → Nat → Option Nat → List Nat → List LengthItem
  | zeros, again, last, [] => LengthItem.zeros zeros ++ LengthItem.repeats (last.getD 0) again
  | zeros, again, last, 0 :: lengths =>
    LengthItem.repeats (last.getD 0) again ++
      if zeros + 1 = zerosLimit then LengthItem.zeros zerosLimit ++ lengthItems 0 0 (some 0) lengths
      else lengthItems (zeros + 1) 0 (some 0) lengths
  | zeros, again, last, (l + 1) :: lengths =>
    LengthItem.zeros zeros ++
      if last = some (l + 1) then
        if again + 1 = repeatsLimit then
          LengthItem.repeats (l + 1) repeatsLimit ++ lengthItems 0 0 last lengths
        else lengthItems 0 (again + 1) last lengths
      else
        LengthItem.repeats (last.getD 0) again ++
          LengthItem.single (l + 1) :: lengthItems 0 0 (some (l + 1)) lengths

/-- Drops unused symbols at the end, but keeps the first `least`. -/
def trimLengths (least : Nat) (lengths : List Nat) : List Nat :=
  lengths.take least ++
    ((lengths.drop least).reverse.dropWhile fun length => length == 0).reverse

/-- The order in which the lengths of the code for items are written. -/
def itemOrder : List Nat := [16, 17, 18, 0, 8, 7, 9, 6, 10, 5, 11, 4, 12, 3, 13, 2, 14, 1, 15]

def longestItemWord : Nat := 7

/-- How often each number below `size` occurs. -/
def frequencies (size : Nat) (numbers : List Nat) : List Nat :=
  (numbers.foldl (fun (counts : Array Nat) n => counts.modify n (· + 1))
    (Array.replicate size 0)).toList

def describe (literals distances : List Nat) : List Bool :=
  let items := lengthItems 0 0 none (literals ++ distances)
  let lengths := chooseLengths longestItemWord
    (frequencies itemOrder.length (items.map LengthItem.number))
  let written := trimLengths 4 (itemOrder.map fun number => lengths.getD number 0)
  let words := codeWords lengths
  lowBits 5 (literals.length - 257) ++ lowBits 5 (distances.length - 1) ++
    lowBits 4 (written.length - 4) ++ written.flatMap (lowBits 3) ++
    items.flatMap fun item => words.getD item.number [] ++ item.extra

/-- The numbers of literals and lengths in symbols. -/
def literalNumbers (symbols : Array Symbol) : List Nat :=
  symbols.foldr (fun symbol numbers =>
    match symbol with
    | .literal octet => octet.toNat :: numbers
    | .copy length _ => (classOfLength length).number :: numbers) []

def distanceNumbers (symbols : Array Symbol) : List Nat :=
  symbols.foldr (fun symbol numbers =>
    match symbol with
    | .literal _ => numbers
    | .copy _ distance => (classOfDistance distance).number :: numbers) []

def dynamicBody (symbols : Array Symbol) : List Bool :=
  let literals := trimLengths 257 (chooseLengths longestWord
    (frequencies literalCount (endNumber :: literalNumbers symbols)))
  let distances := trimLengths 1 (chooseLengths longestWord
    (frequencies distanceCount (distanceNumbers symbols)))
  dynamicForm ++ describe literals distances ++
    symbolBits (codeWords literals) (codeWords distances) symbols

end TagRegistry.Deflate
