import TagRegistry.Repository.Object
import TagRegistry.Table

/-! The file of packed references: a line for each, its object and its name.

Comments start with `#` and come first. A line that starts with `^` gives the object that the tag
on the line before finally leads to. Every line has to be closed. -/

namespace TagRegistry.PackedRefs

/-- Cuts off the first line, which holds no NUL. -/
def line? (bs : Bytes) : Option (Bytes × Bytes) :=
  (Bytes.cutAt? 10 bs).filter fun (line, _) => !line.contains 0

/-- Skips comments; none if the last one is not closed. -/
def skipComments? : Nat → Bytes → Option Bytes
  | fuel + 1, 35 :: bs => do
    let (_, rest) ← line? bs
    skipComments? fuel rest
  | _, bs => some bs

/-- Reads what may follow an entry, the object that its tag leads to. -/
def peeled? : Bytes → Option (Option ObjectId × Bytes)
  | 94 :: bs => do
    let id ← ObjectId.ofDigits? (bs.take 40)
    match bs.drop 40 with
    | [] => some (some id, [])
    | rest => (line? rest).map fun (_, rest) => (some id, rest)
  | bs => some (none, bs)

/-- The identifier of nothing. -/
def noObject : ObjectId := ObjectId.ofNat 0

/-- Reads an entry: its name, and the object that it leads to. -/
def entry? (bs : Bytes) : Option ((Bytes × ObjectId) × Bytes) := do
  let id ← ObjectId.ofDigits? (bs.take 40)
  match bs.drop 40 with
  | 32 :: rest =>
    let (line, rest) ← line? rest
    let name := if line.getLast? = some 13 then line.dropLast else line
    let (peeled, rest) ← peeled? rest
    let target := if peeled = some noObject then id else peeled.getD id
    return ((name, target), rest)
  | _ => none

def entries? : Nat → Bytes → Option (List (Bytes × ObjectId))
  | _, [] => some []
  | 0, _ => none
  | fuel + 1, bs => do
    let (entry, rest) ← entry? bs
    return entry :: (← entries? fuel rest)

/-- Reads the file; none if it is corrupt. Of two entries for one name the later counts. -/
def read? (content : Bytes) : Option (Table Bytes ObjectId) := do
  let rest ← skipComments? content.length content
  return Table.ofList (← entries? rest.length rest)

def line (entry : Bytes × ObjectId) : Bytes :=
  Bytes.ascii entry.2.text ++ 32 :: entry.1 ++ [10]

/-- The file for some entries, without what their tags lead to. -/
def write (entries : List (Bytes × ObjectId)) : Bytes := entries.flatMap line

end TagRegistry.PackedRefs
