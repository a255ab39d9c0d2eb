import TagRegistry.Config.File
import TagRegistry.Config.Hostname
import TagRegistry.Config.Listen
import TagRegistry.Disk.Basic
import TagRegistry.ModuleMap

/-! The configuration of a registry, and the reasons why there is none. -/

namespace TagRegistry

structure Config where
  hostname : Hostname
  /-- Where to listen, in the order of declaration. -/
  listeners : List ListenAddress
  modules : ModuleMap
  /-- The files that were read, in order. -/
  files : List Bytes
  deriving DecidableEq, Repr

inductive ModuleFault where
  | coordinate (cause : CoordinateError)
  | emptyGitDir
  deriving DecidableEq, Repr

def ModuleFault.message : ModuleFault → String
  | .coordinate cause => cause.message
  | .emptyGitDir => "git_dir cannot be empty"

inductive ConfigError where
  | noFiles
  | unreadable (path : Bytes) (cause : DiskError)
  | malformed (path : Bytes)
  | hostnameMissing
  | hostnameRepeated (first second : Bytes)
  | invalidHostname (raw : String) (fault : HostnameFault)
  | moduleRepeated (coordinate : Coordinate) (origin existing : String)
  | invalidModule (origin : String) (fault : ModuleFault)
  | emptyListener
  deriving DecidableEq, Repr

namespace ConfigError

open TagRegistry.Path (display)

def message : ConfigError → String
  | .noFiles => "no configuration files specified"
  | .unreadable path cause =>
    s!"failed to read config file '{display path}': {cause.message}"
  | .malformed path => s!"failed to parse config file '{display path}'"
  | .hostnameMissing => "hostname is not set in any configuration file"
  | .hostnameRepeated first second =>
    s!"hostname set again in '{display second}' (already set in '{display first}')"
  | .invalidHostname raw fault => s!"invalid hostname '{raw}': {fault.reason}"
  | .moduleRepeated coordinate origin existing =>
    s!"duplicate module declaration for {coordinate} at {origin} (already declared at {existing})"
  | .invalidModule origin fault => s!"invalid module declaration at {origin}: {fault.message}"
  | .emptyListener => "invalid config value: listener address cannot be empty"

end ConfigError

end TagRegistry
