import TagRegistry.Deflate.Inflate
import TagRegistry.Deflate.Match

/-! Compressing a stream while it comes in.

Octets are turned into symbols as soon as enough of them are there to see the longest match. A
match is only used if the next octet does not begin a longer one. Symbols are gathered to blocks,
and a block that would be larger than its octets is stored.

A compressed block is read back before it is used; one that did not give its octets again would
be stored. So nothing about codes and matches has to be trusted. -/

namespace TagRegistry.Deflate

/-- The symbols of the block that is being gathered. -/
structure OpenBlock where
  /-- Where its octets start. -/
  start : Nat
  symbols : Array Symbol
  /-- The number of octets that the symbols stand for. -/
  covered : Nat
  /-- What the symbols take up in a list with one octet for a literal and three for a copy. -/
  weight : Nat
  deriving DecidableEq, Repr

namespace OpenBlock

def startingAt (start : Nat) : OpenBlock := ⟨start, #[], 0, 0⟩

def addLiteral : OpenBlock → UInt8 → OpenBlock
  | ⟨start, symbols, covered, weight⟩, octet =>
    ⟨start, symbols.push (.literal octet), covered + 1, weight + 1⟩

def addCopy : OpenBlock → Match → OpenBlock
  | ⟨start, symbols, covered, weight⟩, m =>
    ⟨start, symbols.push (.copy m.length m.distance), covered + m.length, weight + 3⟩

/-- The size of that list, with a flag for each symbol. -/
def listSize (b : OpenBlock) : Nat := 1 + b.weight + b.symbols.size / 8

/-- Should the block be closed? It is if its list is full, or if its octets do not compress. -/
def isFull (b : OpenBlock) : Bool :=
  0x10000 - 8 < b.listSize ||
    (31 * 1024 < b.covered && b.covered ≤ (b.listSize * 115) >>> 7)

end OpenBlock

/-- A match that waits for the next place to have no longer one, with the octet it starts with. -/
structure Waiting where
  octet : UInt8
  found : Match
  deriving DecidableEq, Repr

structure Compressor where
  /-- Everything that came in. -/
  content : Array UInt8
  chains : Chains
  /-- Where the next symbol starts; behind the first octet of the match that waits. -/
  place : Nat
  /-- How far back matches may reach. -/
  reach : Nat
  waiting : Option Waiting
  block : OpenBlock
  /-- Bits that fill no octet yet. -/
  tail : List Bool
  /-- Octets that can be taken. -/
  ready : Bytes
  deriving DecidableEq, Repr

namespace Compressor

def empty : Compressor := ⟨#[], .empty, 0, 0, none, .startingAt 0, [], []⟩

/-- Octets in stored blocks, of which the last one may be the last of the stream. -/
def storedBits (isLast : Bool) (tail : List Bool) (bs : Bytes) : Bytes :=
  let size := min bs.length storedLimit
  let rest := bs.drop storedLimit
  packPadded (tail ++ (isLast && rest.isEmpty) :: storedForm) ++ Bytes.littleEndian 2 size ++
    Bytes.littleEndian 2 (storedLimit - size) ++ bs.take storedLimit ++
    if rest.isEmpty then [] else storedBits isLast [] rest
termination_by bs.length
decreasing_by
  simp only [rest, List.isEmpty_iff, List.drop_eq_nil_iff, storedLimit] at *
  simp only [List.length_drop]
  omega

/-- The bits of a block, if reading them gives the octets from `start` to `stop`. -/
def checkedBits? (content : Array UInt8) (start stop : Nat) (bits : List Bool) :
    Option (List Bool) :=
  let window := start - windowSize
  match readBlock (content.extract window start) (.ofBits bits) with
  | some (_, out, rest) =>
    if rest.isEmpty && out == content.extract window stop then some bits else none
  | none => none

/-- A block with fewer octets than this uses the fixed codes. -/
def fixedLimit : Nat := 48

/-- Is a block as large as its octets, if its bits come after the tail and its octets can still
be stored? -/
def isExpanded (tail bits : List Bool) (covered : Nat) : Bool :=
  32 < covered && covered ≤ ((tail.length + 1) % 8 + (bits.length - 1)) / 8 + 1

def closeBlock (isLast : Bool) : Compressor → Compressor
  | ⟨content, chains, place, reach, waiting, block, tail, ready⟩ =>
    let stop := block.start + block.covered
    let body := if block.covered < fixedLimit then fixedBody block.symbols
      else dynamicBody block.symbols
    let bits := isLast :: body
    let stored : Bytes × List Bool :=
      (storedBits isLast tail (content.extract block.start stop).toList, [])
    let (octets, tail) :=
      if isExpanded tail bits block.covered && place - block.start ≤ reach then stored
      else
        match checkedBits? content block.start stop bits with
        | some bits => if isLast then (packPadded (tail ++ bits), []) else pack (tail ++ bits)
        | none => stored
    ⟨content, chains, place, reach, waiting, .startingAt stop, tail, ready ++ octets⟩

/-- A match that cannot be used: a short one from far back, or one from the very start of the
window. -/
def isUseless (place : Nat) (m : Match) : Bool :=
  (m.length == shortestCopy && 8192 ≤ m.distance) || place % windowSize == m.distance

/-- A match of this length does not wait. -/
def longEnough : Nat := 128

/-- Decides what stands at a place: the new block, what waits, and how far to go. -/
def choose (content : Array UInt8) (place : Nat) (found : Match) (block : OpenBlock) :
    Option Waiting → OpenBlock × Option Waiting × Nat
  | some w =>
    if w.found.length < found.length then
      let block := block.addLiteral w.octet
      if longEnough ≤ found.length then (block.addCopy found, none, found.length)
      else (block, some ⟨content.getD place 0, found⟩, 1)
    else (block.addCopy w.found, none, w.found.length - 1)
  | none =>
    if found.distance = 0 then (block.addLiteral (content.getD place 0), none, 1)
    else if longEnough ≤ found.length then (block.addCopy found, none, found.length)
    else (block, some ⟨content.getD place 0, found⟩, 1)

def step : Compressor → Compressor
  | ⟨content, chains, place, reach, waiting, block, tail, ready⟩ =>
    let ahead := min longestCopy (content.size - place)
    let chains := chains.enterBefore content (place + ahead)
    let reach := min (windowSize - ahead) reach
    let known := match waiting with
      | some w => w.found.length
      | none => shortestCopy - 1
    let found := Search.run ⟨content, chains.links, place, reach, ahead⟩ known
    let found := if isUseless place found then ⟨0, 0⟩ else found
    let (block, waiting, forward) := choose content place found block waiting
    ⟨content, chains, place + forward, min (reach + forward) windowSize, waiting, block, tail,
      ready⟩

def closeIfFull (c : Compressor) : Compressor := if c.block.isFull then c.closeBlock false else c

/-- Goes forward while at least `ahead` octets are there. `fuel` bounds the steps. -/
def advance (ahead : Nat) : Nat → Compressor → Compressor
  | 0, c => c
  | fuel + 1, c =>
    if c.content.size - c.place < ahead then c else advance ahead fuel c.step.closeIfFull

def feed (bs : Bytes) : Compressor → Compressor
  | ⟨content, chains, place, reach, waiting, block, tail, ready⟩ =>
    let content := content ++ bs
    advance longestCopy (content.size - place)
      ⟨content, chains, place, reach, waiting, block, tail, ready⟩

/-- Takes the end of the stream in. -/
def finish (c : Compressor) : Compressor :=
  (advance 1 (c.content.size - c.place) c).closeBlock true

/-- Gives away what is ready. -/
def takeReady : Compressor → Bytes × Compressor
  | ⟨content, chains, place, reach, waiting, block, tail, ready⟩ =>
    (ready, ⟨content, chains, place, reach, waiting, block, tail, []⟩)

end Compressor

def deflate (bs : Bytes) : Bytes := (Compressor.empty.feed bs).finish.ready

end TagRegistry.Deflate
