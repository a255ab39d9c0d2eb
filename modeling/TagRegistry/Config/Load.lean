import TagRegistry.Config.Merge

/-! Loading a configuration from a disk.

A path is a file, or a directory that stands for the `.toml` files directly in it. All paths are
expanded before any file is read, and all files are read before any two are merged. -/

namespace TagRegistry.Config

def bytesLe (a b : Bytes) : Bool := compare a b != .gt

/-- The configuration files directly in a directory, links to files included, by name. -/
def filesIn (d : Disk) (directory : Bytes) (names : List Bytes) : List Bytes :=
  let found := names.filter fun name =>
    Path.hasExtension (Bytes.ascii "toml") name && d.isFile (Path.join directory name)
  (found.mergeSort bytesLe).map (Path.join directory)

/-- The files that a path stands for. -/
def expand (d : Disk) (path : Bytes) : Except ConfigError (List Bytes) :=
  let read {α : Type} (answer : Except DiskError α) := answer.mapError (.unreadable path)
  do
    match ← read (d.stat path) with
    | .directory => return filesIn d path (← read (d.entries path))
    | _ => return [path]

def parseFile (path : Bytes) (text : String) : Except ConfigError (Bytes × ConfigFile) :=
  match ConfigFile.parse? text with
  | some file => .ok (path, file)
  | none => .error (.malformed path)

def readFile (d : Disk) (path : Bytes) : Except ConfigError (Bytes × ConfigFile) := do
  parseFile path (← (d.readText path).mapError (.unreadable path))

def load (d : Disk) (paths : List Bytes) : Except ConfigError Config := do
  let files := (← paths.mapM (expand d)).flatten
  if files.isEmpty then throw .noFiles
  merge (← files.mapM (readFile d))

end TagRegistry.Config
