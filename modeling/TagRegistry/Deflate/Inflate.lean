import TagRegistry.Deflate.Block

/-! Reading a compressed stream back. -/

namespace TagRegistry.Deflate

/-- The most that one stored block holds. -/
def storedLimit : Nat := 65535

/-- Appends so many octets from so far back, one after another, so that a copy may overlap
itself. -/
def copyBack : Nat → Nat → Array UInt8 → Array UInt8
  | 0, _, out => out
  | length + 1, distance, out =>
    copyBack length distance (out.push (out.getD (out.size - distance) 0))

/-- Reads symbols up to the end of their block. `fuel` bounds their number. -/
def readSymbols (literals distances : PrefixCode) :
    Nat → Array UInt8 → BitSource → Option (Array UInt8 × BitSource)
  | 0, _, _ => none
  | fuel + 1, out, s => do
    let (number, s) ← literals.read s
    if number < endNumber then
      readSymbols literals distances fuel (out.push (UInt8.ofNat number)) s
    else if number = endNumber then some (out, s)
    else
      let (length, s) ← readLength number s
      let (number, s) ← distances.read s
      let (distance, s) ← readDistance number s
      if out.size < distance then none
      else readSymbols literals distances fuel (copyBack length distance out) s

/-- Reads `count` code lengths, behind those read before, the last one first. `fuel` bounds the
number of items. -/
def readLengths (items : PrefixCode) :
    Nat → Nat → List Nat → BitSource → Option (List Nat × BitSource)
  | _, 0, before, s => some (before.reverse, s)
  | 0, _, _, _ => none
  | fuel + 1, count, before, s => do
    let (number, s) ← items.read s
    if number < 16 then readLengths items fuel (count - 1) (number :: before) s
    else
      let (length, least, width) ←
        if number = 16 then before.head?.map fun last => (last, 3, 2)
        else if number = 17 then some (0, 3, 3)
        else some (0, 11, 7)
      let (more, s) ← s.number? width
      let run := least + more
      if count < run then none
      else readLengths items fuel (count - run) (List.replicate run length ++ before) s

/-- Reads the lengths of the code for items, as they are written. -/
def readItemLengths : Nat → BitSource → Option (List Nat × BitSource)
  | 0, s => some ([], s)
  | count + 1, s => do
    let (length, s) ← s.number? 3
    let (lengths, s) ← readItemLengths count s
    return (length :: lengths, s)

/-- Puts written lengths back in the order of the items. -/
def orderItemLengths (written : List Nat) : List Nat :=
  ((itemOrder.zip written).foldl (fun (lengths : Array Nat) (item, length) =>
    lengths.setIfInBounds item length) (Array.replicate itemOrder.length 0)).toList

/-- Reads the description of two codes. -/
def readDescription (s : BitSource) : Option (PrefixCode × PrefixCode × BitSource) := do
  let (literals, s) ← s.number? 5
  let (distances, s) ← s.number? 5
  let (items, s) ← s.number? 4
  let (written, s) ← readItemLengths (items + 4) s
  let code := PrefixCode.ofLengths (orderItemLengths written)
  let literals := literals + 257
  let count := literals + distances + 1
  let (lengths, s) ← readLengths code count count [] s
  return (.ofLengths (lengths.take literals), .ofLengths (lengths.drop literals), s)

/-- Reads the content of a stored block. It starts with the next octet. -/
def readStored (out : Array UInt8) (s : BitSource) : Option (Array UInt8 × BitSource) :=
  let size := Bytes.fromLittleEndian (s.octets.take 2)
  let inverse := Bytes.fromLittleEndian ((s.octets.drop 2).take 2)
  let body := s.octets.drop 4
  let content := body.take size
  if size + inverse = storedLimit ∧ content.length = size then
    some (out ++ content, ⟨[], body.drop size⟩)
  else none

def readBody (out : Array UInt8) (s : BitSource) : Option (Array UInt8 × BitSource) := do
  let (form, s) ← s.number? 2
  match form with
  | 0 => readStored out s
  | 1 =>
    readSymbols (.ofLengths fixedLiteralLengths) (.ofLengths fixedDistanceLengths)
      (s.size + 1) out s
  | 2 =>
    let (literals, distances, s) ← readDescription s
    readSymbols literals distances (s.size + 1) out s
  | _ => none

/-- Reads a block: was it the last one, and what there is now. -/
def readBlock (out : Array UInt8) (s : BitSource) : Option (Bool × Array UInt8 × BitSource) := do
  let (isLast, s) ← s.bit?
  let (out, s) ← readBody out s
  return (isLast, out, s)

/-- Reads blocks up to the last one. `fuel` bounds their number. -/
def readBlocks : Nat → Array UInt8 → BitSource → Option (Array UInt8 × BitSource)
  | 0, _, _ => none
  | fuel + 1, out, s => do
    let (isLast, out, s) ← readBlock out s
    if isLast then some (out, s) else readBlocks fuel out s

/-- The content of the compressed stream in front of octets, and what follows it. Bits that are
left of the last octet are skipped. -/
def inflate (bs : Bytes) : Option (Array UInt8 × Bytes) :=
  (readBlocks (bs.length + 1) #[] (.ofBytes bs)).map fun (out, s) => (out, s.octets)

end TagRegistry.Deflate
