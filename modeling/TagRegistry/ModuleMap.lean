import TagRegistry.Coordinate
import TagRegistry.Table
import TagRegistry.Text.Utf8

/-! The configured modules: for each coordinate, where its repository is and where that was
declared. The map is nested, namespace to name to provider, and every level is in ascending
key order. -/

namespace TagRegistry

/-- Where a module's repository is, and where that was declared. -/
structure Location where
  gitDir : Bytes
  origin : String
  deriving DecidableEq, Repr

def Location.text (l : Location) : String :=
  s!"{Utf8.decodeLossy l.gitDir} (declared at {l.origin})"

/-- Namespace to name to provider to location. -/
structure ModuleMap where
  spaces : Table String (Table String (Table String Location))
  deriving DecidableEq, Repr

namespace ModuleMap

def empty : ModuleMap := ⟨[]⟩

/-- The providers configured for a module name, in provider order. -/
def providers? (m : ModuleMap) (space name : String) : Option (Table String Location) :=
  (m.spaces.lookup space).bind fun names => names.lookup name

def lookup (m : ModuleMap) (space name provider : String) : Option Location :=
  (m.providers? space name).bind fun providers => providers.lookup provider

/-- Adds a module. A coordinate that is there already keeps its location, which is the error. -/
def insert (m : ModuleMap) (c : Coordinate) (l : Location) : Except Location ModuleMap :=
  match m.lookup c.space c.name c.provider with
  | some existing => .error existing
  | none =>
    .ok ⟨Table.alter c.space (fun names =>
      Table.alter c.name (fun providers =>
        Table.alter c.provider (fun _ => l) (providers.getD [])) (names.getD [])) m.spaces⟩

def size (m : ModuleMap) : Nat :=
  (m.spaces.flatMap fun (_, names) => names.flatMap fun (_, providers) => providers).length

def isEmpty (m : ModuleMap) : Bool := m.size == 0

/-- All modules in coordinate order. -/
def toList (m : ModuleMap) : List (Coordinate × Location) :=
  m.spaces.flatMap fun (space, names) =>
    names.flatMap fun (name, providers) =>
      providers.filterMap fun (provider, location) =>
        (Coordinate.make space name provider).toOption.map fun c => (c, location)

end ModuleMap

end TagRegistry
