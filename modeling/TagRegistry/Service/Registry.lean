import TagRegistry.Config.Basic
import TagRegistry.Protocol.Operation
import TagRegistry.Service.Download

/-! The registry's operations. -/

namespace TagRegistry

/-- What all requests share. -/
structure Registry where
  hostname : Hostname
  modules : ModuleMap
  deriving DecidableEq, Repr

namespace Registry

/-- The registry that a configuration describes. -/
def ofConfig (c : Config) : Registry := ⟨c.hostname, c.modules⟩

/-- Can a text be the value of a header? Control characters other than the tab cannot. -/
def isHeaderText (s : String) : Bool := s.toList.all fun c => c == '\t' || (' ' ≤ c && c ≠ '\x7f')

/-- The module of a coordinate. -/
def locate (r : Registry) (space name provider : String) : Serving ServedModule :=
  match r.modules.lookup space name provider, Coordinate.make space name provider with
  | some location, .ok coordinate => return ⟨coordinate, location⟩
  | _, _ => throw .notFound

/-- A version in a path; what is none is not found. -/
def readVersion (raw : String) : Serving Version :=
  match Version.parse raw with
  | .ok v => return v
  | .error _ => throw .notFound

/-- The modules of a name, in provider order. -/
def modulesOf (r : Registry) (space name : String) : Serving (List ServedModule) :=
  match r.modules.providers? space name with
  | none => throw .notFound
  | some providers =>
    return providers.filterMap fun (provider, location) =>
      (Coordinate.make space name provider).toOption.map fun c => ⟨c, location⟩

/-- The latest version of every provider. Providers that cannot be read or have no versions are
left out. -/
def listProviders (r : Registry) (access : StoreAccess) (space name : String) :
    Serving ModuleList := do
  let found ← (← r.modulesOf space name).mapM fun m =>
    Serving.attempt? do m.latest? (← m.store access)
  return ⟨found.filterMap Option.join, none⟩

def getLatest (r : Registry) (access : StoreAccess) (space name provider : String) :
    Serving ModuleSummary := do
  let m ← r.locate space name provider
  match ← m.latest? (← m.store access) with
  | some summary => return summary
  | none => throw .notFound

/-- All versions of a module, the highest first. -/
def listVersions (r : Registry) (access : StoreAccess) (space name provider : String) :
    Serving VersionList := do
  let m ← r.locate space name provider
  let versions ← m.require (Catalog.listVersions (← m.store access))
  return VersionList.of r.hostname.text m.coordinate versions

def getVersion (r : Registry) (access : StoreAccess) (space name provider version : String) :
    Serving ModuleSummary := do
  let m ← r.locate space name provider
  let v ← readVersion version
  m.checkListed (← m.store access) v
  return ModuleSummary.of m.coordinate v

/-- The tree whose archive is the download of a version. -/
def downloadTree (r : Registry) (access : StoreAccess) (space name provider version : String) :
    Serving TreeId := do
  let m ← r.locate space name provider
  let v ← readVersion version
  m.treeOf (← m.store access) v

/-- A module's store and a version in it, of which the supplied identifier names the tree. -/
def checkDownload (r : Registry) (access : StoreAccess)
    (space name provider version treeId : String) :
    Serving (ServedModule × ObjectStore × Version) := do
  let m ← r.locate space name provider
  let v ← readVersion version
  let s ← m.store access
  m.checkTree s v treeId
  return (m, s, v)

/-- The answer that carries an archive to a receiver, who may not wait for it. A module whose name
does not fit into a header has none. -/
def archiveResponse (m : ServedModule) (s : ObjectStore) (v : Version) (patience : Option Nat) :
    Response × List StoreFailure :=
  let fileName := m.coordinate.archiveFileName v
  if isHeaderText fileName then
    let (ch, log) := m.sendArchive s v (.fresh patience)
    (⟨200, [("content-type", "application/x-gzip"),
      ("content-disposition", "attachment; filename=" ++ fileName)], .stream ch.sent⟩, log)
  else (.plain 500 "failed to parse header value", (m.sendArchive s v (.fresh (some 0))).2)

def serve (r : Registry) (access : StoreAccess) (patience : Option Nat) :
    Operation String → Serving Response
  | .discovery => return .json discoveryJson
  | .providers space name => do
    return .json (← r.listProviders access space name).toJson
  | .latest space name provider => do
    return .json (← r.getLatest access space name provider).toJson
  | .everyVersion space name provider => do
    return .json (← r.listVersions access space name provider).toJson
  | .oneVersion space name provider version => do
    return .json (← r.getVersion access space name provider version).toJson
  | .location space name provider version => do
    let tree ← r.downloadTree access space name provider version
    return .sized 204 [("content-type", "text/plain"), ("x-terraform-get", archiveLink tree)] []
  | .archive space name provider version treeId => do
    let (m, s, v) ← r.checkDownload access space name provider version treeId
    let (response, log) := archiveResponse m s v patience
    log.forM Serving.log
    return response

/-! ## Requests -/

/-- The answer to a method that no operation knows. -/
def methodRefused : Response := .sized 405 [("allow", "GET,HEAD")] []

/-- The answer to a path with a parameter that is no text. -/
def parameterRefused (parameter : Parameter) : Response :=
  .plain 400 ("Invalid URL: Invalid UTF-8 in \x60" ++ parameter.label ++ "\x60")

def answer (r : Registry) (access : StoreAccess) (patience : Option Nat) (op : Operation Bytes) :
    Response × List StoreFailure :=
  match op.decode with
  | .error parameter => (parameterRefused parameter, [])
  | .ok op =>
    match (r.serve access patience op).outcome with
    | (.ok response, log) => (response, log)
    | (.error e, log) => (.ofError e, log)

/-- Answers a request for a path. The path is looked at first, then the method. When only the
headers are asked for, nobody waits for the body. -/
def respondAt (r : Registry) (access : StoreAccess) (method : String) (path : Bytes) :
    Response × List StoreFailure :=
  match Operation.ofPath? path with
  | none => (.unrouted, [])
  | some op =>
    if method = "GET" then r.answer access none op
    else if method = "HEAD" then
      let (response, log) := r.answer access (some 0) op
      (response.withoutBody, log)
    else (methodRefused, [])

/-- Answers a request. A target without a path names nothing. -/
def respond (r : Registry) (access : StoreAccess) (method : String) (target : Bytes) :
    Response × List StoreFailure :=
  match Operation.pathOf? target with
  | none => (.ofError .notFound, [])
  | some path => r.respondAt access method path

end Registry

end TagRegistry
