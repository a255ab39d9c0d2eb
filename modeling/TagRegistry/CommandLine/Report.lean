import TagRegistry.Config.Basic
import TagRegistry.Service.Basic

/-! A summary of a configuration and of the versions that its repositories hold. -/

namespace TagRegistry

/-- What is known of a module. -/
inductive ModuleStatus where
  /-- So many versions, of which this is the highest. -/
  | versions (count : Nat) (latest : Version)
  | noVersions
  | unreadable (cause : StoreError)
  deriving DecidableEq, Repr

structure ModuleReport where
  module : ServedModule
  status : ModuleStatus
  deriving DecidableEq, Repr

structure Report where
  hostname : Hostname
  files : List Bytes
  listeners : List ListenAddress
  modules : List ModuleReport
  deriving DecidableEq, Repr

namespace ModuleStatus

def ofVersions : List Version → ModuleStatus
  | [] => .noVersions
  | latest :: rest => .versions (rest.length + 1) latest

def isUnreadable : ModuleStatus → Bool
  | .unreadable _ => true
  | _ => false

end ModuleStatus

namespace ModuleReport

def of (access : StoreAccess) (m : ServedModule) : ModuleReport :=
  match access m.location.gitDir >>= Catalog.listVersions with
  | .ok versions => ⟨m, .ofVersions versions⟩
  | .error cause => ⟨m, .unreadable cause⟩

/-- What is wrong with a store. Its path is not repeated. -/
def reason : StoreError → String
  | .notARepository _ => "not a git repository"
  | cause => cause.message

def line (r : ModuleReport) : String :=
  let status := match r.status with
    | .versions count latest => s!"{count} versions, latest {latest}"
    | .noVersions => "no versions"
    | .unreadable cause => s!"unreadable ({r.module.location.text}): {reason cause}"
  s!"module: {r.module.coordinate}: {status}"

end ModuleReport

namespace Report

def of (access : StoreAccess) (c : Config) : Report where
  hostname := c.hostname
  files := c.files
  listeners := c.listeners
  modules := c.modules.toList.map fun item => .of access ⟨item.1, item.2⟩

/-- The number of modules whose repositories cannot be read. -/
def unreadable (r : Report) : Nat := r.modules.countP fun m => m.status.isUnreadable

def listenLines : List ListenAddress → List String
  | [] => ["listen: (none; serve will refuse to start)"]
  | addresses => addresses.map fun address => s!"listen: {address}"

def lines (r : Report) : List String :=
  s!"hostname: {r.hostname}" :: r.files.map (fun file => s!"file: {Path.display file}") ++
    listenLines r.listeners ++ r.modules.map ModuleReport.line

def text (r : Report) : String := String.join (r.lines.map (· ++ "\n"))

end Report

end TagRegistry
