import TagRegistry.Repository.Basic
import TagRegistry.Repository.RefName

/-! References: what their files say, which there are, and which commit they lead to. -/

namespace TagRegistry

open Bytes (slash)

inductive RefTarget where
  | object (id : ObjectId)
  | reference (name : Bytes)
  deriving DecidableEq, Repr

namespace RefTarget

def symbolicMark : Bytes := Bytes.ascii "ref: "

/-- Reads a reference file: `ref: ` and a name up to the first NUL, or 40 hexadecimal digits at
the end of the file or before a space or a NUL. -/
def ofFile? (content : Bytes) : Option RefTarget :=
  if symbolicMark.isPrefixOf content then
    let name := (Bytes.trimEnd content).drop symbolicMark.length
    if name.isEmpty then none else some (.reference (Bytes.beforeNul name))
  else if (content.drop 40).head?.all fun b => b == 0 || Bytes.isSpace b then
    (ObjectId.ofDigits? (content.take 40)).map .object
  else none

end RefTarget

namespace Repository

variable (r : Repository)

def isReference (file : Bytes × Bytes) : Bool := (RefTarget.ofFile? file.2).isSome

/-- All references: the loose ones by name, then the packed ones that are not listed as loose,
by name. Loose files that are no references, and names that are not text, are left out. -/
def referenceNames : Except StoreError (List String) :=
  match r.packed with
  | none => .error .packedRefsCorrupt
  | some packed =>
    let loose := Table.keys (r.looseFiles.filter isReference)
    .ok ((loose ++ packed.keys.filter fun name => !loose.contains name).filterMap Utf8.decode?)

/-- Looks up one reference, a loose file before a packed entry. `ok none` means absent. -/
def lookupRef (name : Bytes) : Except StoreError (Option RefTarget) :=
  match r.looseFile name with
  | .error e => .error e
  | .ok (some content) =>
    match RefTarget.ofFile? content with
    | some target => .ok (some target)
    | none => .error .damaged
  | .ok none =>
    match r.packed with
    | none => .error .packedRefsCorrupt
    | some packed => .ok ((packed.lookup name).map .object)

/-- How many symbolic references in a row are followed after the first one's target. -/
def symbolicLimit : Nat := 5

/-- Follows symbolic references to an object, at most so many. -/
def resolve : Nat → RefTarget → Except StoreError (Option ObjectId)
  | _, .object id => .ok (some id)
  | 0, .reference _ => .error .damaged
  | hops + 1, .reference name =>
    match r.lookupRef name with
    | .error e => .error e
    | .ok none => .ok none
    | .ok (some target) => resolve hops target

/-- The object a reference's content leads to. The name in a symbolic reference has to be a
legal one. -/
def resolveTarget : RefTarget → Except StoreError (Option ObjectId)
  | .object id => .ok (some id)
  | .reference name =>
    match RefName.normalize? name with
    | none => .error .damaged
    | some name => r.resolve (symbolicLimit + 1) (.reference name)

/-- Follows annotated tags to a commit, at most so many. `ok none` means that an object is
missing or not of the kind the tag says. -/
def peelObject : Nat → ObjectId → Option ObjectKind → Except StoreError (Option Snapshot)
  | 0, _, _ => .error .damaged
  | depth + 1, id, expected =>
    match r.object? id with
    | none => .ok none
    | some object =>
      if expected.any (· != object.kind) then .ok none
      else
        match object.kind with
        | .commit =>
          match CommitObject.read? object.content with
          | some commit => .ok (some ⟨⟨commit.tree⟩, commit.time⟩)
          | none => .error .damaged
        | .tag =>
          match TagObject.read? object.content with
          | some tag => peelObject depth tag.object (some tag.kind)
          | none => .error .damaged
        | .tree | .blob => .error .damaged

/-- What the error says when something on the way from a reference to its commit is missing. -/
def absent (name : String) : StoreError :=
  if "refs/".toList.isPrefixOf name.toList then .refNotFound name else .objectNotFound name

def peel (name : String) : Except StoreError Snapshot :=
  match RefName.normalize? (Utf8.encode name) with
  | none => .error .damaged
  | some normal => do
    let some target ← r.lookupRef normal | throw (absent name)
    let some id ← r.resolveTarget target | throw (absent name)
    let some snapshot ← r.peelObject (r.objects.length + 1) id none | throw (absent name)
    return snapshot

end Repository

end TagRegistry
