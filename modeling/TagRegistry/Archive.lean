import TagRegistry.Catalog
import TagRegistry.Sink.Sealable
import TagRegistry.Tar.Name

/-! The tar archive of a tagged directory snapshot.

Every member has the committer time of the tagged commit. Directories come before their
contents, as `path/` with mode 0755; files keep their permission bits and their content;
symbolic links are link members; commits of other repositories are left out; siblings stand in
the store's order. So the archive is a function of the snapshot and the commit time.

Writing stops at the first failure and leaves what has been written. The end of the archive
is only written after everything else, so what a failure leaves is not a complete archive. A
builder that is dropped before its end still tries to write that end; what it writes to is sealed
first. -/

namespace TagRegistry

/-- Why a member could not be added to an archive. -/
inductive AppendError where
  | name (cause : Tar.NameError)
  /-- What it is written to takes no more. -/
  | refused
  deriving DecidableEq, Repr

def AppendError.message : AppendError → String
  | .name cause => cause.message
  | .refused => "archive aborted"

inductive ArchiveError where
  /-- The store did not answer. -/
  | store (cause : StoreError)
  /-- The entry at this path could not be added. -/
  | unarchivable (path : Bytes) (cause : AppendError)
  /-- The sink takes no more. -/
  | write
  deriving DecidableEq, Repr

def ArchiveError.message : ArchiveError → String
  | .store cause => cause.message
  | .unarchivable path cause => s!"cannot archive '{Utf8.decodeLossy path}': {cause.message}"
  | .write => "write failed: client went away"

namespace Archive

open Tar

variable {σ : Type} [Sink σ]

/-! ## Members -/

/-- Adding to an archive, with a failure that leaves the sink as it is. -/
abbrev Append (σ : Type) := ExceptT AppendError (StateM σ)

def put (bs : Bytes) : Append σ Unit := fun out =>
  match Sink.put out bs with
  | (out, true) => (.ok (), out)
  | (out, false) => (.error .refused, out)

/-- Goes on with a name that can be recorded. -/
def recorded : Except NameError Recorded → Append σ Recorded
  | .ok r => pure r
  | .error cause => throw (.name cause)

/-- Adds a header, a content and the padding after it. -/
def appendMember (h : Header) (content : Bytes) : Append σ Unit := do
  put h.encode
  put content
  put (padding content.length)

/-- The name of the members that carry a long name. -/
def longRecordName : Bytes := Bytes.ascii "././@LongLink"

/-- Adds a name or target in a member of its own, closed by a NUL. -/
def appendLong (kind : Kind) (name : Bytes) (mtime : Nat) : Append σ Unit :=
  appendMember ⟨kind, longRecordName, 0o644, name.length + 1, mtime, []⟩ (name ++ [0])

/-- The permission bits of a recorded mode. -/
def permissions (mode : UInt32) : Nat := mode.toNat % 0o10000

/-- Adds a directory. Its name, which ends in a slash, is not checked; a name longer than
the field stands in a record in front. -/
def appendDirectory (path : Bytes) (mtime : Nat) : Append σ Unit := do
  if fieldSize < path.length then appendLong .longName path mtime
  appendMember ⟨.directory, path, 0o755, 0, mtime, []⟩ []

def appendFile (path : Bytes) (mode : UInt32) (content : Bytes) (mtime : Nat) :
    Append σ Unit := do
  let name ← recorded (recordName path)
  if name.isLong then appendLong .longName path 0
  appendMember ⟨.file, name.field, permissions mode, content.length, mtime, []⟩ content

def appendLink (path target : Bytes) (mtime : Nat) : Append σ Unit := do
  let name ← recorded (recordName path)
  if name.isLong then appendLong .longName path 0
  let link ← recorded (recordLink name.field target)
  if link.isLong then appendLong .longLink target 0
  appendMember ⟨.symlink, name.field, 0o777, 0, mtime, link.field⟩ []

/-! ## Archives -/

/-- Writing an archive, with a failure that leaves the sink as it is. -/
abbrev Emit (σ : Type) := ExceptT ArchiveError (StateM σ)

def emit (bs : Bytes) : Emit σ Unit := fun out =>
  match Sink.put out bs with
  | (out, true) => (.ok (), out)
  | (out, false) => (.error .write, out)

def ask {α : Type} : Except StoreError α → Emit σ α
  | .ok a => pure a
  | .error cause => throw (.store cause)

/-- What a failure to add the entry at a path is put down to. It may depend on what the sink has
become. -/
abbrev Blame (σ : Type) := σ → Bytes → AppendError → ArchiveError

/-- Puts each failure down to its cause. -/
def blameCause : Blame σ
  | _, path, .name cause => .unarchivable path (.name cause)
  | _, _, .refused => .write

/-- Puts a failure down to the sink if it has ever refused something, and otherwise to the
entry. -/
def classify : Blame (Sealable σ) := fun builder path failure =>
  if builder.failed then .write else .unarchivable path failure

/-- Adds the entry at a path. -/
def append {α : Type} (blame : Blame σ) (path : Bytes) (adding : Append σ α) : Emit σ α :=
  fun out =>
    match adding out with
    | (.ok a, out) => (.ok a, out)
    | (.error failure, out) => (.error (blame out path failure), out)

/-- Writes everything below a tree. `above` is the path of the tree, with a slash at its end.
`depth` bounds the nesting. -/
def emitTree (blame : Blame σ) (s : ObjectStore) (mtime : Nat) :
    Nat → ObjectId → Bytes → Emit σ Unit
  | 0, tree, _ => throw (.store (.endless tree))
  | depth + 1, tree, above => do
    let entries ← ask (s.readTree tree)
    entries.forM fun entry => do
      let path := above ++ entry.name
      match entry.kind with
      | .directory =>
        append blame (path ++ [Bytes.slash]) (appendDirectory (path ++ [Bytes.slash]) mtime)
        emitTree blame s mtime depth entry.oid (path ++ [Bytes.slash])
      | .file =>
        let content ← ask (s.readBlob entry.oid)
        append blame path (appendFile path entry.mode content mtime)
      | .symlink =>
        let target ← ask (s.readBlob entry.oid)
        append blame path (appendLink path target mtime)
      | .submodule => pure ()

/-- A depth that only a tree inside itself can exhaust. Every level of nesting writes a header,
so the room of a small sink is used up first even then. -/
def depthFor (s : ObjectStore) (out : σ) : Nat :=
  s.treeIds.length + (Sink.room out).getD 0 / blockSize + 2

/-- Times before 1970 cannot be recorded and count as 1970. -/
def memberTime (commit : Snapshot) : Nat := commit.committedAt.toInt.toNat

def writeSnapshot (s : ObjectStore) (commit : Snapshot) (out : σ) :
    Except ArchiveError Unit × σ :=
  let body : Emit σ Unit := do
    emitTree blameCause s (memberTime commit) (depthFor s out) commit.tree.oid []
    emit trailer
  body.run.run out

/-- Writes the archive of a version. Without a canonical tag nothing is written. -/
def write (s : ObjectStore) (v : Version) (out : σ) : Except ArchiveError Unit × σ :=
  match Catalog.resolveCommit s v with
  | .ok commit => writeSnapshot s commit out
  | .error cause => (.error (.store cause), out)

/-- Writes the archive of a version through a builder. One that is dropped before its end tries to
write `ending`; by then what it writes to is sealed. -/
def writeSealing (ending : List Bytes) (s : ObjectStore) (v : Version) (out : σ) :
    Except ArchiveError Unit × σ :=
  match Catalog.resolveCommit s v with
  | .error cause => (.error (.store cause), out)
  | .ok commit =>
    match emitTree classify s (memberTime commit) (depthFor s out) commit.tree.oid []
      (Sealable.onto out) with
    | (.ok (), builder) =>
      let (result, builder) := emit trailer builder
      (result, builder.inner)
    | (.error cause, builder) => (.error cause, (Sink.putAll ending builder.sealed).1.inner)

end Archive

end TagRegistry
