import TagRegistry.Archive
import TagRegistry.ModuleMap
import TagRegistry.Protocol.Body
import TagRegistry.Protocol.Response

/-! Serving one module.

A request opens the module's repository, asks it, and lets go of it; nothing is kept between two
requests. What a repository fails to do is logged with the module's place and with the cause.
The client only learns that the request failed. -/

namespace TagRegistry

structure ServedModule where
  coordinate : Coordinate
  location : Location
  deriving DecidableEq, Repr

/-- A line of the log: what a module's repository failed to do. -/
structure StoreFailure where
  module : ServedModule
  cause : ArchiveError
  deriving DecidableEq, Repr

def StoreFailure.message : String := "module store failure"

/-- How the repository at a path is opened. -/
abbrev StoreAccess := Bytes → Except StoreError ObjectStore

/-- Serving a request, with the log of failures. -/
abbrev Serving := ExceptT RequestError (StateM (List StoreFailure))

namespace Serving

/-- Serves, from an empty log. -/
def outcome {α : Type} (x : Serving α) : Except RequestError α × List StoreFailure := x.run.run []

/-- Goes on without a result if there is none; what was logged stays. -/
def attempt? {α : Type} (x : Serving α) : Serving (Option α) := fun log =>
  match x.run.run log with
  | (.ok a, log) => (.ok (some a), log)
  | (.error _, log) => (.ok none, log)

def log (failure : StoreFailure) : Serving Unit := modify (· ++ [failure])

end Serving

namespace ServedModule

/-- Goes on with an answer of the store; a failure is logged. -/
def require {α : Type} (m : ServedModule) : Except StoreError α → Serving α
  | .ok a => pure a
  | .error cause => do
    Serving.log ⟨m, .store cause⟩
    throw .internal

def store (m : ServedModule) (access : StoreAccess) : Serving ObjectStore :=
  m.require (access m.location.gitDir)

/-- The summary of the highest version, if there are versions. -/
def latest? (m : ServedModule) (s : ObjectStore) : Serving (Option ModuleSummary) := do
  return (← m.require (Catalog.latestVersion? s)).map (ModuleSummary.of m.coordinate)

/-- Goes on only if some tag names a version of this precedence. -/
def checkListed (m : ServedModule) (s : ObjectStore) (v : Version) : Serving Unit := do
  unless ← m.require (Catalog.hasVersion s v) do throw .notFound

/-- The tree of a listed version. A version that is only tagged in another spelling has none. -/
def treeOf (m : ServedModule) (s : ObjectStore) (v : Version) : Serving TreeId := do
  m.checkListed s v
  match Catalog.resolveTree s v with
  | .ok tree => return tree
  | .error cause =>
    if cause.isRefNotFound then throw .notFound else m.require (.error cause)

end ServedModule

end TagRegistry
