import TagRegistry.Path
import TagRegistry.Protocol.Percent

/-! The operations of the protocol and their paths.

    /.well-known/terraform.json
    /{namespace}/{name}
    /{namespace}/{name}/{provider}
    /{namespace}/{name}/{provider}/versions
    /{namespace}/{name}/{provider}/{version}
    /{namespace}/{name}/{provider}/{version}/download
    /{namespace}/{name}/{provider}/{version}/download/{tree_id} -/

namespace TagRegistry

/-- What paths leave open. -/
inductive Parameter where
  | space
  | name
  | provider
  | version
  | treeId
  deriving DecidableEq, Repr

def Parameter.label : Parameter → String
  | .space => "namespace"
  | .name => "name"
  | .provider => "provider"
  | .version => "version"
  | .treeId => "tree_id"

/-- What a client may ask for. Parameters are octets of the path or, decoded, text. -/
inductive Operation (α : Type) where
  /-- Where this host serves modules. -/
  | discovery
  /-- The latest version of every provider. -/
  | providers (space name : α)
  /-- The latest version. -/
  | latest (space name provider : α)
  /-- All versions. -/
  | everyVersion (space name provider : α)
  /-- One version. -/
  | oneVersion (space name provider version : α)
  /-- Where the archive of a version is. -/
  | location (space name provider version : α)
  /-- The archive of a version, under the identifier of its tree. -/
  | archive (space name provider version treeId : α)
  deriving DecidableEq, Repr

namespace Operation

open Bytes (ascii)

/-- The operation that the segments of a path name. Fixed segments come before parameters, and
only the last segment must not be empty. -/
def ofSegments? (segments : List Bytes) : Option (Operation Bytes) :=
  if segments.getLast? = some [] then none
  else
    match segments with
    | [space, name] =>
      if space = ascii ".well-known" ∧ name = ascii "terraform.json" then some .discovery
      else some (.providers space name)
    | [space, name, provider] => some (.latest space name provider)
    | [space, name, provider, version] =>
      if version = ascii "versions" then some (.everyVersion space name provider)
      else some (.oneVersion space name provider version)
    | [space, name, provider, version, action] =>
      if action = ascii "download" then some (.location space name provider version) else none
    | [space, name, provider, version, action, treeId] =>
      if action = ascii "download" then some (.archive space name provider version treeId)
      else none
    | _ => none

/-- Does an octet end the path of a request? -/
def endsPath (b : UInt8) : Bool := b == 63 || b == 35

/-- What follows the scheme of a complete address. -/
def afterScheme? (target : Bytes) : Option Bytes := do
  let (_, rest) ← Bytes.cutAt? 58 target
  Text.dropFront? [Bytes.slash, Bytes.slash] rest

/-- The path in the target of a request, which is a path or a complete address. What follows the
path does not count, and an address without one has the path `/`. -/
def pathOf? (target : Bytes) : Option Bytes :=
  if Path.isAbsolute target then some (target.takeWhile fun b => !endsPath b)
  else
    (afterScheme? target).map fun rest =>
      let path := rest.dropWhile fun b => b != Bytes.slash && !endsPath b
      if Path.isAbsolute path then path.takeWhile fun b => !endsPath b else [Bytes.slash]

def ofPath? (path : Bytes) : Option (Operation Bytes) :=
  match path.splitOn Bytes.slash with
  | [] :: segments => ofSegments? segments
  | _ => none

/-- Reads every parameter, in order of appearance. -/
def mapM {α β ε : Type} (read : Parameter → α → Except ε β) : Operation α → Except ε (Operation β)
  | .discovery => .ok .discovery
  | .providers s n => do return .providers (← read .space s) (← read .name n)
  | .latest s n p => do return .latest (← read .space s) (← read .name n) (← read .provider p)
  | .everyVersion s n p => do return .everyVersion (← read .space s) (← read .name n) (← read .provider p)
  | .oneVersion s n p v => do
    return .oneVersion (← read .space s) (← read .name n) (← read .provider p) (← read .version v)
  | .location s n p v => do
    return .location (← read .space s) (← read .name n) (← read .provider p) (← read .version v)
  | .archive s n p v t => do
    return .archive (← read .space s) (← read .name n) (← read .provider p) (← read .version v)
      (← read .treeId t)

def readText (parameter : Parameter) (raw : Bytes) : Except Parameter String :=
  match Utf8.decode? (Percent.decode raw) with
  | some text => .ok text
  | none => .error parameter

/-- The operation with its parameters as text, or the first parameter that is none. -/
def decode (op : Operation Bytes) : Except Parameter (Operation String) := op.mapM readText

end Operation

end TagRegistry
