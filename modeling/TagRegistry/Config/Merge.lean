import TagRegistry.Config.Basic

/-! Putting files together to one configuration.

The hostname is set in exactly one file, listeners and modules add up, and each coordinate is
declared once. Files are taken in order, and of each file first the hostname, then the
listeners, then the modules; the first fault is the answer. That no file sets the hostname
is only known after all of them. -/

namespace TagRegistry.Config

/-- What the files so far add up to. -/
structure Draft where
  /-- The hostname and the file that sets it. -/
  hostname : Option (Hostname × Bytes)
  listeners : List ListenAddress
  modules : ModuleMap

namespace Draft

def empty : Draft := ⟨none, [], ModuleMap.empty⟩

def addHostname (d : Draft) (path : Bytes) : Option String → Except ConfigError Draft
  | none => .ok d
  | some raw =>
    match d.hostname with
    | some (_, first) => .error (.hostnameRepeated first path)
    | none =>
      match Hostname.parse raw with
      | .ok hostname => .ok { d with hostname := some (hostname, path) }
      | .error fault => .error (.invalidHostname raw fault)

def addListener (d : Draft) (raw : String) : Except ConfigError Draft :=
  match ListenAddress.parse? raw with
  | some address => .ok { d with listeners := d.listeners ++ [address] }
  | none => .error .emptyListener

/-- Where a file declares its module with the given number. -/
def originOf (path : Bytes) (index : Nat) : String := s!"{Path.display path}: module[{index}]"

/-- Relative repository paths start in the directory of the file that declares them. -/
def baseOf (path : Bytes) : Bytes := (Path.parent? path).getD [Bytes.dot]

def addModule (path : Bytes) (d : Draft) (item : ModuleSection × Nat) :
    Except ConfigError Draft :=
  let (s, index) := item
  let origin := originOf path index
  match Coordinate.make s.space s.name s.provider with
  | .error cause => .error (.invalidModule origin (.coordinate cause))
  | .ok coordinate =>
    if s.gitDir.isEmpty then .error (.invalidModule origin .emptyGitDir)
    else
      match d.modules.insert coordinate
        ⟨Path.join (baseOf path) (Utf8.encode s.gitDir), origin⟩ with
      | .ok modules => .ok { d with modules := modules }
      | .error existing => .error (.moduleRepeated coordinate origin existing.origin)

def addFile (d : Draft) (item : Bytes × ConfigFile) : Except ConfigError Draft := do
  let (path, file) := item
  let d ← d.addHostname path file.hostname
  let d ← file.listen.foldlM addListener d
  file.modules.zipIdx.foldlM (addModule path) d

end Draft

def merge (files : List (Bytes × ConfigFile)) : Except ConfigError Config := do
  let d ← files.foldlM Draft.addFile Draft.empty
  match d.hostname with
  | some (hostname, _) => return ⟨hostname, d.listeners, d.modules, files.map Prod.fst⟩
  | none => throw .hostnameMissing

end TagRegistry.Config
