import TagRegistry.Path
import TagRegistry.Repository.Object

/-! The part of a file system that a run can see, and what it is refused there. Paths are followed
as Linux follows them, symbolic links included. -/

namespace TagRegistry

/-- A place: the names on the way from it up to the root, its own name first. -/
abbrev Place := List Bytes

inductive Node where
  | file (content : Bytes)
  | directory
  | link (target : Bytes)
  deriving DecidableEq, Repr

/-- What is asked of a place. -/
inductive Access where
  /-- To look for a name in a directory. -/
  | search
  /-- To look at what a name in a directory stands for. -/
  | inspect
  /-- To list the names in a directory. -/
  | list
  /-- To read a file. -/
  | read
  deriving DecidableEq, Repr

/-- Why something that is there is refused. -/
inductive Refusal where
  | permission
  | inputOutput
  deriving DecidableEq, Repr

def Refusal.message : Refusal → String
  | .permission => "Permission denied (os error 13)"
  | .inputOutput => "Input/output error (os error 5)"

inductive DiskError where
  | notFound
  | notDirectory
  | isDirectory
  | nameTooLong
  | tooManyLinks
  | nulInPath
  | notText
  | refused (cause : Refusal)
  deriving DecidableEq, Repr

def DiskError.message : DiskError → String
  | .notFound => "No such file or directory (os error 2)"
  | .notDirectory => "Not a directory (os error 20)"
  | .isDirectory => "Is a directory (os error 21)"
  | .nameTooLong => "File name too long (os error 36)"
  | .tooManyLinks => "Too many levels of symbolic links (os error 40)"
  | .nulInPath => "file name contained an unexpected NUL byte"
  | .notText => "stream did not contain valid UTF-8"
  | .refused cause => cause.message

/-- Files, directories and links. The files that hold the objects of a repository are not spelled
out. -/
structure Disk where
  nodes : List (Place × Node)
  /-- The objects that are kept in a directory. -/
  objects : List (Place × List (ObjectId × StoredObject))
  /-- The current directory. It and the directories above it are always there. -/
  here : Place
  /-- What is refused at which place. -/
  refusals : List ((Place × Access) × Refusal)
  deriving DecidableEq, Repr

namespace Disk

open Bytes (slash dot)

/-- A disk with nothing but the current directory. -/
def emptyAt (here : Place) : Disk := ⟨[], [], here, []⟩

def node? (d : Disk) (place : Place) : Option Node :=
  if place.isSuffixOf d.here then some .directory else d.nodes.lookup place

def refusal? (d : Disk) (place : Place) (access : Access) : Option Refusal :=
  d.refusals.lookup (place, access)

/-- Goes on unless something is refused. -/
def ask (d : Disk) (place : Place) (access : Access) : Except DiskError Unit :=
  match d.refusal? place access with
  | none => .ok ()
  | some cause => .error (.refused cause)

/-- Looks for what is at a place. -/
def look (d : Disk) (place : Place) : Except DiskError (Option Node) :=
  match d.node? place with
  | none => .ok none
  | some node => (d.ask place .inspect).map fun _ => some node

/-- What a directory holds, by name, in no particular order. -/
def nodesIn (d : Disk) (directory : Place) : List (Bytes × Node) :=
  d.nodes.filterMap fun
    | (name :: above, node) => if above = directory then some (name, node) else none
    | ([], _) => none

/-- Where a path starts that is followed from a directory. -/
def startOf (directory : Place) (path : Bytes) : Place :=
  if Path.isAbsolute path then [] else directory

/-- The steps of a path. A slash at the end is an empty step behind the others. -/
def stepsOf (path : Bytes) : List Bytes :=
  (path.splitOn slash).filter (fun piece => !piece.isEmpty) ++
    if Path.endsWithSlash path then [[]] else []

/-- The longest name and the longest path. -/
def nameLimit : Nat := 255

def pathLimit : Nat := 4095

/-- How many symbolic links are followed on one way. -/
def linkLimit : Nat := 40

/-- Takes steps from a directory. An empty step stays there, as `.` does, but asks nothing of it.
Above the root is the root itself. The last step may lead to something new where `mayBeNew` says
so. -/
def walk (d : Disk) (mayBeNew : Bool) (links : Nat) (here : Place) :
    List Bytes → Except DiskError Place
  | [] => .ok here
  | step :: rest =>
    if step = [] then d.walk mayBeNew links here rest
    else
      match d.ask here .search with
      | .error cause => .error cause
      | .ok () =>
        if step = [dot] then d.walk mayBeNew links here rest
        else if step = [dot, dot] then d.walk mayBeNew links here.tail rest
        else if nameLimit < step.length then .error .nameTooLong
        else
          match d.look (step :: here) with
          | .error cause => .error cause
          | .ok none => if mayBeNew && rest.isEmpty then .ok (step :: here) else .error .notFound
          | .ok (some .directory) => d.walk mayBeNew links (step :: here) rest
          | .ok (some (.file _)) =>
            if rest.isEmpty then .ok (step :: here) else .error .notDirectory
          | .ok (some (.link target)) =>
            match links with
            | 0 => .error .tooManyLinks
            | links + 1 => d.walk mayBeNew links (startOf here target) (stepsOf target ++ rest)
termination_by steps => (links, steps.length)

/-- The place that a path leads to from a directory, links followed. -/
def resolveFrom (d : Disk) (directory : Place) (path : Bytes) : Except DiskError Place :=
  if path.contains 0 then .error .nulInPath
  else if path.isEmpty then .error .notFound
  else if pathLimit < path.length then .error .nameTooLong
  else d.walk false linkLimit (startOf directory path) (stepsOf path)

def resolve (d : Disk) (path : Bytes) : Except DiskError Place := d.resolveFrom d.here path

def statFrom (d : Disk) (directory : Place) (path : Bytes) : Except DiskError Node := do
  match d.node? (← d.resolveFrom directory path) with
  | some node => return node
  | none => throw .notFound

def stat (d : Disk) (path : Bytes) : Except DiskError Node := d.statFrom d.here path

def isDirectory (d : Disk) (path : Bytes) : Bool := d.stat path matches .ok .directory

def isFileFrom (d : Disk) (directory : Place) (path : Bytes) : Bool :=
  d.statFrom directory path matches .ok (.file _)

def isFile (d : Disk) (path : Bytes) : Bool := d.isFileFrom d.here path

/-- What is found in a directory that may be listed. -/
def listing (d : Disk) (place : Place) : Except DiskError (List (Bytes × Node)) :=
  match d.node? place with
  | some .directory => (d.ask place .list).map fun _ => d.nodesIn place
  | _ => .error .notDirectory

/-- The names in a directory, in no particular order. -/
def entries (d : Disk) (path : Bytes) : Except DiskError (List Bytes) := do
  return (← d.listing (← d.resolve path)).map Prod.fst

/-- The content of the file that a path leads to from a directory. -/
def readFrom (d : Disk) (directory : Place) (path : Bytes) : Except DiskError Bytes := do
  let place ← d.resolveFrom directory path
  d.ask place .read
  match d.node? place with
  | some (.file content) => return content
  | some .directory => throw .isDirectory
  | _ => throw .notFound

def readText (d : Disk) (path : Bytes) : Except DiskError String := do
  match Utf8.decode? (← d.readFrom d.here path) with
  | some text => return text
  | none => throw .notText

/-! ## Changes -/

/-- Puts something at a place, instead of what was there. -/
def put (d : Disk) (place : Place) (node : Node) : Disk :=
  match d.nodes.lookup place with
  | none => { d with nodes := (place, node) :: d.nodes }
  | some _ =>
    { d with nodes := d.nodes.map fun item => if item.1 = place then (place, node) else item }

/-- Makes the directories on a way that are not there. -/
def makeWay (d : Disk) (here : Place) : List Bytes → Disk × Place
  | [] => (d, here)
  | step :: rest =>
    match d.walk false linkLimit here [step] with
    | .ok place => d.makeWay place rest
    | .error _ => (d.put (step :: here) .directory).makeWay (step :: here) rest

def makeDirectory (d : Disk) (path : Bytes) : Disk :=
  (d.makeWay (startOf d.here path) (stepsOf path)).1

/-- Makes the directories on the way to the last step of a path. -/
def makeWayBefore (d : Disk) (path : Bytes) : Option (Disk × Place × Bytes) :=
  match (stepsOf path).reverse with
  | [] => none
  | last :: way =>
    let (d, directory) := d.makeWay (startOf d.here path) way.reverse
    some (d, directory, last)

/-- Writes a file, with the directories on the way. A link at the end is followed. -/
def writeFile (d : Disk) (path content : Bytes) : Disk :=
  match d.makeWayBefore path with
  | none => d
  | some (d, directory, last) =>
    match d.walk true linkLimit directory [last] with
    | .ok place => d.put place (.file content)
    | .error _ => d

/-- Makes a symbolic link, with the directories on the way. -/
def makeLink (d : Disk) (path target : Bytes) : Disk :=
  match d.makeWayBefore path with
  | none => d
  | some (d, directory, last) => d.put (last :: directory) (.link target)

/-- The place of the last step of a path itself. -/
def placeOf? (d : Disk) (path : Bytes) : Option Place :=
  match (stepsOf path).reverse with
  | [] => none
  | last :: way =>
    if last = [] ∨ last = [dot] ∨ last = [dot, dot] then (d.resolve path).toOption
    else
      (d.walk false linkLimit (startOf d.here path) way.reverse).toOption.map (last :: ·)

/-- Removes what a path names, and everything below it. A link goes itself, not what it leads
to. -/
def remove (d : Disk) (path : Bytes) : Disk :=
  match d.placeOf? path with
  | none => d
  | some place =>
    { d with
      nodes := d.nodes.filter fun item => !place.isSuffixOf item.1
      objects := d.objects.filter fun item => !place.isSuffixOf item.1 }

/-- Refuses something at the place that a path leads to. -/
def refuse (d : Disk) (path : Bytes) (access : Access) (cause : Refusal) : Disk :=
  match d.resolve path with
  | .ok place => { d with refusals := ((place, access), cause) :: d.refusals }
  | .error _ => d

end Disk

end TagRegistry
