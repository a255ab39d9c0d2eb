import TagRegistry.Repository.Basic

/-! Tree objects as directory snapshots.

An entry is a mode in octal digits, a space, a name, a NUL and the octets of an identifier. -/

namespace TagRegistry

namespace FileMode

/-- The bits that tell the kind of an entry. -/
def type (mode : Nat) : Nat := mode / 0o10000

def directoryType : Nat := 4

def linkType : Nat := 10

def submoduleType : Nat := 14

/-- Is the entry executable for its owner? -/
def isExecutable (mode : Nat) : Bool := mode / 0o100 % 2 == 1

/-- One of the five modes that git knows. The executable bit counts before the type, except
for directories. -/
def canonical (mode : Nat) : Nat :=
  if type mode = directoryType then 0o40000
  else if isExecutable mode then 0o100755
  else if type mode = submoduleType then 0o160000
  else if type mode = linkType then 0o120000
  else 0o100644

/-- The kind of an entry. An executable link counts as a file. -/
def kind (mode : Nat) : EntryKind :=
  if type mode = submoduleType then .submodule
  else if type mode = directoryType then .directory
  else if canonical mode = 0o120000 then .symlink
  else .file

end FileMode

/-- The longest name of an entry, and the highest mode. -/
def entryNameLimit : Nat := 0xFFFF

def modeLimit : Int := 0xFFFF

/-- Reads the mode in front of an entry. -/
def readMode? (bs : Bytes) : Option (Nat × Bytes) := do
  if bs.head?.any Bytes.isSpace then none
  else
    let (mode, rest) ← leadingNumber? 8 bs
    if 0 ≤ mode ∧ mode ≤ modeLimit then some (mode.toNat, rest) else none

/-- Reads the entry in front of a tree, and returns the rest of the tree. -/
def readEntry? (bs : Bytes) : Option (TreeEntry × Bytes) := do
  let (mode, rest) ← readMode? bs
  match rest with
  | 32 :: rest =>
    let (name, rest) ← Bytes.cutAt? 0 rest
    if name.isEmpty || entryNameLimit < name.length then none
    else
      let oid ← ObjectId.ofOctets? (rest.take 20)
      return (⟨name, oid, FileMode.kind mode, UInt32.ofNat (FileMode.canonical mode)⟩, rest.drop 20)
  | _ => none

/-- Reads the entries of a tree. `fuel` bounds their number. -/
def readEntries? : Nat → Bytes → Option (List TreeEntry)
  | _, [] => some []
  | 0, _ => none
  | fuel + 1, bs => do
    let (entry, rest) ← readEntry? bs
    return entry :: (← readEntries? fuel rest)

namespace Repository

variable (r : Repository)

/-- Only identifiers of 40 digits name objects. -/
def find (id : ObjectId) : Except StoreError StoredObject :=
  if id.digits.length ≠ 40 then .error .damaged
  else
    match r.object? id with
    | some object => .ok object
    | none => .error (.objectNotFound id.text)

def readTree (id : ObjectId) : Except StoreError (List TreeEntry) :=
  match r.find id with
  | .error e => .error e
  | .ok object =>
    if object.kind = .tree then
      match readEntries? object.content.length object.content with
      | some entries => .ok entries
      | none => .error .damaged
    else .error (.objectNotFound id.text)

def readBlob (id : ObjectId) : Except StoreError Bytes :=
  match r.find id with
  | .error e => .error e
  | .ok object =>
    if object.kind = .blob then .ok object.content else .error (.objectNotFound id.text)

theorem mem_of_find {r : Repository} {id : ObjectId} {object : StoredObject}
    (h : r.find id = .ok object) : id ∈ r.objects.map Prod.fst := by
  unfold find at h
  split at h
  · simp at h
  · split at h
    · next ho => exact mem_of_lookup ho
    · simp at h

theorem mem_of_readTree {r : Repository} {id : ObjectId} {entries : List TreeEntry}
    (h : r.readTree id = .ok entries) : id ∈ r.objects.map Prod.fst := by
  unfold readTree at h
  split at h
  · simp at h
  · next hf => exact mem_of_find hf

end Repository

end TagRegistry
