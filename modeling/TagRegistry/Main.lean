import TagRegistry.CommandLine.Run

/-! The program. What a command needs from the file system is read first and then the command is
run on that. Of repositories only the references and the settings are read. -/

namespace TagRegistry.Program

/-- Why the system refuses something, unless it says that there is nothing of the kind. -/
def refusalOf : IO.Error → Option Refusal
  | .permissionDenied .. => some .permission
  | .hardwareFault .. => some .inputOutput
  | _ => none

def attempt {α : Type} (action : IO α) : IO (Except (Option Refusal) α) := do
  try return .ok (← action)
  catch e => return .error (refusalOf e)

/-- The content of a file; none for what is no file. -/
def readFile? (path : String) : IO (Option Bytes) := do
  return (← attempt (IO.FS.readBinFile path)).toOption.map ByteArray.toList

/-- The names in a directory. -/
def namesIn (path : String) : IO (Except (Option Refusal) (List String)) :=
  attempt do
    let directory ← IO.FS.realPath path
    return (← directory.readDir).toList.map fun entry => entry.fileName

def isDirectory (path : String) : IO Bool := do
  (← IO.FS.realPath path).isDir

def isThere (path : String) : IO Bool := do
  (← IO.FS.realPath path).pathExists

/-- Takes over a file. One that cannot be read is there, too. -/
def addFile (d : Disk) (path : String) : IO Disk := do
  let octets := Utf8.encode path
  match ← attempt (IO.FS.readBinFile path) with
  | .ok content => return d.writeFile octets content.toList
  | .error none => return d
  | .error (some cause) =>
    let access := if ← isThere path then Access.read else .inspect
    return (d.writeFile octets []).refuse octets access cause

/-- Takes over what a configuration path names: a file, or a directory with its files. -/
def addConfig (d : Disk) (path : String) : IO Disk := do
  let octets := Utf8.encode path
  match ← namesIn path with
  | .ok names =>
    names.foldlM (fun d name => addFile d (path ++ "/" ++ name)) (d.makeDirectory octets)
  | .error (some cause) =>
    if ← isDirectory path then return (d.makeDirectory octets).refuse octets .list cause
    else addFile d path
  | .error none => addFile d path

/-- Takes over a directory of references with everything below it. -/
def addRefs (d : Disk) : Nat → String → IO Disk
  | 0, _ => return d
  | depth + 1, path => do
    match ← namesIn path with
    | .ok names =>
      names.foldlM (fun d name => addRefs d depth (path ++ "/" ++ name))
        (d.makeDirectory (Utf8.encode path))
    | .error _ => addFile d path

/-- Takes over the files of the repository in a directory. Of its objects only the directory is
taken over. -/
def addRepositoryFiles (d : Disk) (root : String) : IO Disk := do
  let d ← [Disk.headName, Disk.settingsName, Disk.sharedName, Disk.packedName].foldlM
    (fun d name => addFile d (root ++ "/" ++ Path.display name)) d
  let objects := root ++ "/" ++ Path.display Disk.objectsName
  let d := if ← isDirectory objects then d.makeDirectory (Utf8.encode objects) else d
  addRefs d (Disk.refDepth + 1) (root ++ "/" ++ Path.display Disk.refsName)

/-- Takes over the files that the repository in a directory shares, too. -/
def addShared (d : Disk) (root : String) : IO Disk := do
  let d ← addRepositoryFiles d root
  match ← readFile? (root ++ "/" ++ Path.display Disk.sharedName) with
  | some content =>
    addRepositoryFiles d (Path.display (Path.join (Utf8.encode root) (Bytes.trimEnd content)))
  | none => return d

/-- Takes over the repository at a path, if there is one. -/
def addRepository (d : Disk) (path : Bytes) : IO Disk := do
  let root := Path.display path
  let inner := root ++ "/" ++ Path.display Disk.dotGit
  let d ← addShared d root
  match ← readFile? inner with
  | some content =>
    let d ← addFile d inner
    match Disk.linkedPath? content with
    | some target => addShared d (Path.display (Path.join path target))
    | none => return d
  | none => addShared d inner

/-- What a command needs from the file system. -/
def readDisk (inv : Invocation) : IO Disk := do
  let here := (Disk.stepsOf (Utf8.encode (← IO.currentDir).toString)).reverse
  let d ← (inv.configs.filterMap Utf8.decode?).foldlM addConfig (.emptyAt here)
  match Config.load d inv.configs with
  | .ok c => c.modules.toList.foldlM (fun d item => addRepository d item.2.gitDir) d
  | .error _ => return d

def usageText : Usage → String
  | .version => "tagregistry 1.0.0"
  | _ => "usage: tagregistry [--debug] serve|check CONFIG..."

/-- Runs a command and tells its exit code. There are no sockets here to bind. -/
def run (args : List String) : IO Nat := do
  match Invocation.read (args.map Utf8.encode) with
  | .error .error => do
    IO.eprintln (usageText .error)
    return Usage.error.exitCode
  | .error usage => do
    IO.println (usageText usage)
    return usage.exitCode
  | .ok inv => do
    let result := inv.run (← readDisk inv) fun _ => false
    IO.print result.output
    if let some line := result.errorLine then IO.eprintln line
    return result.exitCode

end TagRegistry.Program

def main (args : List String) : IO UInt32 := do
  return UInt32.ofNat (← TagRegistry.Program.run args)
