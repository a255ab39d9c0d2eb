import TagRegistry.Bytes
import TagRegistry.ObjectId
import TagRegistry.Text.Split

/-! The objects of a git repository, as they are stored: a kind and octets.

A commit and an annotated tag are lines in a fixed order and a message. What the octets of an
object do not say in that form makes the object unreadable. -/

namespace TagRegistry

inductive ObjectKind where
  | blob
  | tree
  | commit
  | tag
  deriving DecidableEq, Repr

structure StoredObject where
  kind : ObjectKind
  content : Bytes
  deriving DecidableEq, Repr

/-- What a commit says of its snapshot: the tree, and the committer's time. -/
structure CommitObject where
  tree : ObjectId
  time : Int64
  deriving DecidableEq, Repr

/-- What an annotated tag says of the object it is on. -/
structure TagObject where
  object : ObjectId
  kind : ObjectKind
  deriving DecidableEq, Repr

open Bytes (ascii)

/-! ## Numbers -/

/-- The digits of a base up to ten in front of octets: their value, and what follows. -/
def leadingDigits? (base : Nat) (bs : Bytes) : Option (Nat × Bytes) :=
  let (digits, rest) := bs.span fun b => 48 ≤ b && b.toNat < 48 + base
  if digits.isEmpty then none
  else some (digits.foldl (fun n b => n * base + (b.toNat - 48)) 0, rest)

/-- A number in front of octets, perhaps behind space and with a sign. -/
def leadingNumber? (base : Nat) (bs : Bytes) : Option (Int × Bytes) :=
  match bs.dropWhile Bytes.isSpace with
  | 45 :: rest => (leadingDigits? base rest).map fun (n, rest) => (-(n : Int), rest)
  | 43 :: rest => (leadingDigits? base rest).map fun (n, rest) => ((n : Int), rest)
  | rest => (leadingDigits? base rest).map fun (n, rest) => ((n : Int), rest)

/-! ## Lines -/

/-- Reads a line that gives an object: a mark and 40 digits. -/
def objectLine? (mark bs : Bytes) : Option (ObjectId × Bytes) := do
  let rest ← Text.dropFront? mark bs
  let id ← ObjectId.ofDigits? (rest.take 40)
  match rest.drop 40 with
  | 10 :: rest => some (id, rest)
  | _ => none

/-- The time behind an e-mail address. Hardly anything there is no time, but not an error. -/
def signatureTime? (after : Bytes) : Option Int64 :=
  if after.length < 2 then some 0
  else do
    let (n, _) ← leadingNumber? 10 (after.drop 1)
    if Int64.minValue.toInt ≤ n ∧ n ≤ Int64.maxValue.toInt then some (Int64.ofInt n) else none

/-- Reads a line that says who did something: a mark, a name, an e-mail address in angle brackets
and a time. The last brackets of the line are those of the address. -/
def signatureLine? (mark bs : Bytes) : Option (Int64 × Bytes) := do
  let (line, rest) ← Bytes.cutAt? 10 bs
  let (name, after) ← Text.cutLast 62 (← Text.dropFront? mark line)
  if name.contains 60 && !after.contains 60 then
    let time ← signatureTime? after
    some (time, rest)
  else none

/-! ## Commits -/

/-- Skips lines that give parents. -/
def skipParents : Nat → Bytes → Bytes
  | 0, bs => bs
  | fuel + 1, bs =>
    match objectLine? (ascii "parent ") bs with
    | some (_, rest) => skipParents fuel rest
    | none => bs

def authorMark : Bytes := ascii "author "

/-- Skips further authors, who have to be written correctly. -/
def skipAuthors? : Nat → Bytes → Option Bytes
  | 0, bs => some bs
  | fuel + 1, bs =>
    if authorMark.isPrefixOf bs then do
      let (_, rest) ← signatureLine? authorMark bs
      skipAuthors? fuel rest
    else some bs

/-- Reads a commit: its tree, its parents, its authors and its committer. -/
def CommitObject.read? (content : Bytes) : Option CommitObject := do
  let (tree, rest) ← objectLine? (ascii "tree ") content
  let rest := skipParents rest.length rest
  let (_, rest) ← signatureLine? authorMark rest
  let rest ← skipAuthors? rest.length rest
  let (time, _) ← signatureLine? (ascii "committer ") rest
  return ⟨tree, time⟩

/-! ## Annotated tags -/

def kindLine? (bs : Bytes) : Option (ObjectKind × Bytes) :=
  let named : List (ObjectKind × String) :=
    [(.commit, "commit\n"), (.tree, "tree\n"), (.blob, "blob\n"), (.tag, "tag\n")]
  if bs.length ≤ 7 then none
  else named.findSome? fun (kind, line) =>
    (Text.dropFront? (ascii line) bs).map fun rest => (kind, rest)

def hasEmptyLine : Bytes → Bool
  | 10 :: 10 :: _ => true
  | _ :: bs => hasEmptyLine bs
  | [] => false

/-- Is this the end of a tag, or does a message follow? -/
def endsTag (bs : Bytes) : Bool := bs.isEmpty || bs.head? == some 10 || hasEmptyLine bs

/-- Reads an annotated tag: its object, the kind of that, its name, perhaps who made it, and its
message. -/
def TagObject.read? (content : Bytes) : Option TagObject := do
  let (object, rest) ← objectLine? (ascii "object ") content
  let (kind, rest) ← kindLine? (← Text.dropFront? (ascii "type ") rest)
  let (_, rest) ← Bytes.cutAt? 10 (← Text.dropFront? (ascii "tag ") rest)
  let rest ←
    if rest.isEmpty || rest.head? == some 10 then some rest
    else (signatureLine? (ascii "tagger ") rest).map Prod.snd
  if endsTag rest then some ⟨object, kind⟩ else none

/-! ## Writing -/

/-- An entry of a tree as it is stored. The mode is text. -/
structure RawEntry where
  mode : Bytes
  name : Bytes
  oid : ObjectId
  deriving DecidableEq, Repr

def RawEntry.encode (e : RawEntry) : Bytes := e.mode ++ 32 :: e.name ++ 0 :: e.oid.octets

namespace StoredObject

def blob (content : Bytes) : StoredObject := ⟨.blob, content⟩

def tree (entries : List RawEntry) : StoredObject := ⟨.tree, entries.flatMap RawEntry.encode⟩

def line (mark : String) (value : Bytes) : Bytes := ascii mark ++ value ++ [10]

def idText (id : ObjectId) : Bytes := ascii id.text

def commit (tree : ObjectId) (parents : List ObjectId) (author committer message : Bytes) :
    StoredObject :=
  ⟨.commit, line "tree " (idText tree) ++ parents.flatMap (fun p => line "parent " (idText p)) ++
    line "author " author ++ line "committer " committer ++ 10 :: message⟩

/-- An annotated tag on an object that it says to be of a kind. -/
def tag (object : ObjectId) (kind name tagger message : Bytes) : StoredObject :=
  ⟨.tag, line "object " (idText object) ++ line "type " kind ++ line "tag " name ++
    line "tagger " tagger ++ 10 :: message⟩

end StoredObject

end TagRegistry
