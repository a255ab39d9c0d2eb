import TagRegistry.Disk.Basic
import TagRegistry.Repository.Packed
import TagRegistry.Repository.Settings
import TagRegistry.Repository.View

/-! Repositories on a disk.

A path opens the repository in the directory itself or in its `.git`, which may be a directory
or a file that says where the repository is. Directories further up are not searched. A directory
is a repository if it has a `HEAD` file and directories for objects and references; these two may
be in another directory, which several working trees share. -/

namespace TagRegistry

open Bytes (ascii)

/-- Where a repository keeps its files: its own ones, and those that are shared. -/
structure RepositoryPlaces where
  own : Place
  shared : Place
  deriving DecidableEq, Repr

namespace Disk

def dotGit : Bytes := ascii ".git"

def headName : Bytes := ascii "HEAD"

def objectsName : Bytes := ascii "objects"

def refsName : Bytes := ascii "refs"

def packedName : Bytes := ascii "packed-refs"

def settingsName : Bytes := ascii "config"

def sharedName : Bytes := ascii "commondir"

/-! ## Finding -/

def fileIn? (d : Disk) (directory : Place) (name : Bytes) : Option Bytes :=
  (d.readFrom directory name).toOption

def hasDirectory (d : Disk) (directory : Place) (name : Bytes) : Bool :=
  d.statFrom directory name matches .ok .directory

/-- The place that the content of a file leads to from a directory. No path is the directory. -/
def follow? (d : Disk) (directory : Place) (path : Bytes) : Option Place :=
  let path := Bytes.beforeNul path
  if path.isEmpty then some directory else (d.resolveFrom directory path).toOption

/-- The directory of the files that a repository shares. -/
def sharedPlace? (d : Disk) (place : Place) : Option Place :=
  match d.fileIn? place sharedName with
  | none => some place
  | some content => d.follow? place (Bytes.trimEnd content)

/-- The repository that keeps its files in a directory. -/
def directPlaces? (d : Disk) (place : Place) : Option RepositoryPlaces := do
  let shared ← d.sharedPlace? place
  if (d.fileIn? place headName).isSome && d.hasDirectory shared objectsName &&
      d.hasDirectory shared refsName then
    return ⟨place, shared⟩
  else none

def linkMark : Bytes := ascii "gitdir:"

/-- The path that a `.git` file gives. -/
def linkedPath? (content : Bytes) : Option Bytes :=
  match Text.dropFront? linkMark (Bytes.trimEnd content) with
  | some (b :: rest) => some ((b :: rest).dropWhile Bytes.isSpace)
  | _ => none

/-- The repository that a `.git` file in a directory leads to. -/
def linkedPlaces? (d : Disk) (directory : Place) (content : Bytes) : Option RepositoryPlaces := do
  d.directPlaces? (← d.follow? directory (← linkedPath? content))

/-- The repository at a place itself, which may be a `.git` file. -/
def placesHere? (d : Disk) (place : Place) : Option RepositoryPlaces :=
  match d.node? place, place with
  | some .directory, _ => d.directPlaces? place
  | some (.file content), name :: directory =>
    if name = dotGit then d.linkedPlaces? directory content else none
  | _, _ => none

/-- The repository of a place. A `.git` file decides, even if it leads nowhere. -/
def repositoryPlaces? (d : Disk) (place : Place) : Option RepositoryPlaces :=
  match (d.resolveFrom place dotGit).toOption with
  | none => d.placesHere? place
  | some inner =>
    match d.node? inner with
    | some (.file content) => d.linkedPlaces? place content
    | _ => (d.directPlaces? inner).orElse fun _ => d.placesHere? place

/-- Can the repository's settings be read? There need not be any. -/
def hasReadableSettings (d : Disk) (p : RepositoryPlaces) : Bool :=
  (d.fileIn? p.shared settingsName).all fun content =>
    (Settings.read? content).any Settings.isReadable

/-! ## Reading -/

/-- The content of the loose file of a reference name. -/
def looseFile (d : Disk) (p : RepositoryPlaces) (name : Bytes) :
    Except StoreError (Option Bytes) :=
  let directory := if RefName.isOwn name then p.own else p.shared
  match d.readFrom directory (name.dropWhile (· == Bytes.slash)) with
  | .ok content => .ok (some content)
  | .error .notFound | .error .notDirectory | .error .isDirectory => .ok none
  | .error _ => .error .damaged

/-- Something below the directory of references, with links followed. -/
structure RefNode where
  name : Bytes
  place : Place
  node : Node
  deriving DecidableEq, Repr

/-- Directories are in order as if their names ended in a slash. -/
def RefNode.key (n : RefNode) : Bytes :=
  match n.node with
  | .directory => n.name ++ [Bytes.slash]
  | _ => n.name

def isDotGit (name : Bytes) : Bool := name.map Settings.lower == dotGit

/-- What a directory holds, in order; nothing if it cannot be listed. `way` leads to it from `root`;
a link is followed along the whole way. -/
def refNodesIn (d : Disk) (root : Place) (way : List Bytes) (directory : Place) : List RefNode :=
  let found := ((d.listing directory).toOption.getD []).filterMap fun (name, node) =>
    match node with
    | .link _ => do
      let place ← (d.walk false linkLimit root (way ++ [name])).toOption
      return ⟨name, place, ← d.node? place⟩
    | node => some ⟨name, name :: directory, node⟩
  (found.filter fun n => !isDotGit n.name).mergeSort fun a b => compare a.key b.key != .gt

/-- The files below a directory that can be read, the last one first. A nesting too deep ends the
search, and the flag says whether it goes on. -/
def filesBelow (d : Disk) (root : Place) : Nat → List Bytes → Place → List (Bytes × Bytes) × Bool
  | 0, _, _ => ([], false)
  | depth + 1, way, directory =>
    (d.refNodesIn root way directory).foldl (fun (found, goesOn) n =>
      if !goesOn then (found, false)
      else
        let way := way ++ [n.name]
        match n.node with
        | .file content =>
          match d.ask n.place .read with
          | .ok () => (([Bytes.slash].intercalate way, content) :: found, true)
          | .error _ => (found, true)
        | .directory =>
          let (more, goesOn) := d.filesBelow root depth way n.place
          (more ++ found, goesOn)
        | .link _ => (found, true)) ([], true)

/-- How deep directories of references may nest. -/
def refDepth : Nat := 100

def lockMark : Bytes := ascii ".lock"

/-- The loose files below `refs/`, by name. Lock files are left out. -/
def looseFiles (d : Disk) (p : RepositoryPlaces) : List (Bytes × Bytes) :=
  match (d.resolveFrom p.shared refsName).toOption with
  | none => []
  | some place =>
    let files := (d.filesBelow p.shared refDepth [refsName] place).1
    let files := files.filter fun file => !lockMark.isSuffixOf file.1
    let files := files.filterMap fun (name, content) =>
      if RefName.isOwn name then
        ((d.looseFile p name).toOption.bind id).map fun content => (name, content)
      else some (name, content)
    files.mergeSort fun a b => compare a.1 b.1 != .gt

/-- The packed references; none if their file cannot be read. -/
def packedRefs? (d : Disk) (p : RepositoryPlaces) : Option (Table Bytes ObjectId) :=
  match d.readFrom p.shared packedName with
  | .ok content => PackedRefs.read? content
  | .error .notFound | .error .notDirectory => some []
  | .error _ => none

def objectsPlace? (d : Disk) (p : RepositoryPlaces) : Option Place :=
  (d.resolveFrom p.shared objectsName).toOption

def objectsOf (d : Disk) (p : RepositoryPlaces) : List (ObjectId × StoredObject) :=
  ((d.objectsPlace? p).bind fun place => d.objects.lookup place).getD []

def repositoryAt (d : Disk) (p : RepositoryPlaces) : Repository where
  objects := d.objectsOf p
  looseFile := d.looseFile p
  looseFiles := d.looseFiles p
  packed := d.packedRefs? p

def placesAt? (d : Disk) (path : Bytes) : Option RepositoryPlaces :=
  (d.resolve path).toOption.bind d.repositoryPlaces?

/-- Opens the repository at exactly this path. -/
def openRepository (d : Disk) (path : Bytes) : Except StoreError Repository :=
  match d.placesAt? path with
  | some p =>
    if d.hasReadableSettings p then .ok (d.repositoryAt p) else .error (.notARepository path)
  | none => .error (.notARepository path)

/-- Opens the store at exactly this path. -/
def openStore (d : Disk) (path : Bytes) : Except StoreError ObjectStore :=
  (d.openRepository path).map Repository.view

/-! ## Setting up -/

def headContent : Bytes := ascii "ref: refs/heads/main\n"

def settingsContent (bare : Bool) : Bytes :=
  ascii s!"[core]\n\trepositoryformatversion = 0\n\tbare = {bare}\n"

def modifyObjects (d : Disk) (path : Bytes)
    (f : List (ObjectId × StoredObject) → List (ObjectId × StoredObject)) : Disk :=
  match (d.placesAt? path).bind d.objectsPlace? with
  | none => d
  | some place =>
    { d with objects := (place, f ((d.objects.lookup place).getD [])) ::
        d.objects.filter fun item => item.1 != place }

def addObjects (d : Disk) (path : Bytes) (objects : List (ObjectId × StoredObject)) : Disk :=
  d.modifyObjects path (objects ++ ·)

def removeObject (d : Disk) (path : Bytes) (id : ObjectId) : Disk :=
  d.modifyObjects path fun objects => objects.filter fun object => object.1 != id

/-- The path of the directory that holds the files of the repository at a path. -/
def filesPath (d : Disk) (path : Bytes) : Bytes :=
  let inner := Path.join path dotGit
  if d.isDirectory inner then inner else path

/-- Sets up a repository with some files, without a working tree if it is `bare`. -/
def addRepository (d : Disk) (path : Bytes) (bare : Bool)
    (objects : List (ObjectId × StoredObject)) (files : List (Bytes × Bytes)) : Disk :=
  let directory := if bare then path else Path.join path dotGit
  let d := d.writeFile (Path.join directory headName) headContent
  let d := d.writeFile (Path.join directory settingsName) (settingsContent bare)
  let d := d.makeDirectory (Path.join directory objectsName)
  let d := d.makeDirectory (Path.join directory refsName)
  let d := d.addObjects directory objects
  files.foldl (fun d (name, content) => d.writeFile (Path.join directory name) content) d

end Disk

end TagRegistry
