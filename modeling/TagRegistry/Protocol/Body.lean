import TagRegistry.Config.Hostname
import TagRegistry.Coordinate
import TagRegistry.Json.Printer
import TagRegistry.Json.Reader

/-! The JSON bodies of answers. Names and order of their fields are part of the protocol. -/

namespace TagRegistry

open Json

structure ModuleSummary where
  /-- `namespace/name/provider/version` -/
  id : String
  space : String
  name : String
  provider : String
  version : String
  deriving DecidableEq, Repr

/-- Which part of a list a body holds. This registry always answers with whole lists. -/
structure PageMeta where
  limit : String
  currentOffset : String
  nextOffset : String
  prevOffset : String
  deriving DecidableEq, Repr

structure ModuleList where
  modules : List ModuleSummary
  page : Option PageMeta
  deriving DecidableEq, Repr

structure VersionEntry where
  version : String
  deriving DecidableEq, Repr

structure ProviderVersions where
  /-- `hostname/namespace/name/provider` -/
  source : String
  versions : List VersionEntry
  deriving DecidableEq, Repr

structure VersionList where
  modules : List ProviderVersions
  deriving DecidableEq, Repr

namespace ModuleSummary

def of (c : Coordinate) (v : Version) : ModuleSummary :=
  ⟨c.moduleId v, c.space, c.name, c.provider, v.render⟩

def fieldNames : List String := ["id", "namespace", "name", "provider", "version"]

def toJson (s : ModuleSummary) : Value :=
  .record [("id", .ofText s.id), ("namespace", .ofText s.space), ("name", .ofText s.name),
    ("provider", .ofText s.provider), ("version", .ofText s.version)]

def ofJson? (v : Value) : Option ModuleSummary := do
  match ← v.fields? fieldNames with
  | [some id, some space, some name, some provider, some version] =>
    return ⟨← id.text?, ← space.text?, ← name.text?, ← provider.text?, ← version.text?⟩
  | _ => none

end ModuleSummary

namespace PageMeta

def fieldNames : List String := ["limit", "current_offset", "next_offset", "prev_offset"]

def toJson (m : PageMeta) : Value :=
  .record [("limit", .ofText m.limit), ("current_offset", .ofText m.currentOffset),
    ("next_offset", .ofText m.nextOffset), ("prev_offset", .ofText m.prevOffset)]

def ofJson? (v : Value) : Option PageMeta := do
  match ← v.fields? fieldNames with
  | [some limit, some current, some next, some prev] =>
    return ⟨← limit.text?, ← current.text?, ← next.text?, ← prev.text?⟩
  | _ => none

end PageMeta

namespace ModuleList

def fieldNames : List String := ["modules", "meta"]

/-- A list without page has no field for it. -/
def toJson (l : ModuleList) : Value :=
  .record (("modules", .array (l.modules.map ModuleSummary.toJson)) ::
    (l.page.map fun page => ("meta", page.toJson)).toList)

/-- Reads the page, which may be absent or null. -/
def pageOf? : Option Value → Option (Option PageMeta)
  | none => some none
  | some .null => some none
  | some v => (PageMeta.ofJson? v).map some

def ofJson? (v : Value) : Option ModuleList := do
  match ← v.fields? fieldNames with
  | [some modules, page] =>
    return ⟨← (← modules.items?).mapM ModuleSummary.ofJson?, ← pageOf? page⟩
  | _ => none

end ModuleList

namespace VersionEntry

def toJson (e : VersionEntry) : Value := .record [("version", .ofText e.version)]

def ofJson? (v : Value) : Option VersionEntry := do
  match ← v.fields? ["version"] with
  | [some version] => return ⟨← version.text?⟩
  | _ => none

end VersionEntry

namespace ProviderVersions

def toJson (p : ProviderVersions) : Value :=
  .record [("source", .ofText p.source), ("versions", .array (p.versions.map VersionEntry.toJson))]

def ofJson? (v : Value) : Option ProviderVersions := do
  match ← v.fields? ["source", "versions"] with
  | [some source, some versions] =>
    return ⟨← source.text?, ← (← versions.items?).mapM VersionEntry.ofJson?⟩
  | _ => none

end ProviderVersions

namespace VersionList

def of (hostname : String) (c : Coordinate) (versions : List Version) : VersionList :=
  ⟨[⟨hostname ++ "/" ++ c.text, versions.map fun v => ⟨v.render⟩⟩]⟩

def toJson (l : VersionList) : Value :=
  .record [("modules", .array (l.modules.map ProviderVersions.toJson))]

def ofJson? (v : Value) : Option VersionList := do
  match ← v.fields? ["modules"] with
  | [some modules] => return ⟨← (← modules.items?).mapM ProviderVersions.ofJson?⟩
  | _ => none

end VersionList

/-- The body that tells clients where the registry's modules are. -/
def discoveryJson : Value := .record [("modules.v1", .ofText "/")]

end TagRegistry
