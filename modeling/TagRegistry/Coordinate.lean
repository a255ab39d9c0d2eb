import TagRegistry.Version.Basic

/-! Module coordinates `namespace/name/provider`. -/

namespace TagRegistry

/-- The parts of a coordinate, in the order they are written and checked. -/
inductive CoordinatePart where
  | space
  | name
  | provider
  deriving DecidableEq, Repr

def CoordinatePart.label : CoordinatePart → String
  | .space => "namespace"
  | .name => "name"
  | .provider => "provider"

inductive CoordinateError where
  | emptyPart (part : CoordinatePart)
  | slashInPart (part : CoordinatePart) (value : String)
  deriving DecidableEq, Repr

def CoordinateError.message : CoordinateError → String
  | .emptyPart part => s!"invalid module coordinate: {part.label} cannot be empty"
  | .slashInPart part value =>
    s!"invalid module coordinate: {part.label} cannot contain '/': {value}"

/-- May a text be one path segment of the protocol? -/
def isSegment (s : String) : Bool := !s.toList.isEmpty && !s.toList.contains '/'

/-- A namespace (`space`), a module name and a provider, each one path segment. -/
structure Coordinate where
  space : String
  name : String
  provider : String
  segments : isSegment space = true ∧ isSegment name = true ∧ isSegment provider = true
  deriving DecidableEq, Repr

namespace Coordinate

def fault? (part : CoordinatePart) (value : String) : Option CoordinateError :=
  if value.toList.isEmpty then some (.emptyPart part)
  else if value.toList.contains '/' then some (.slashInPart part value)
  else none

theorem isSegment_of_fault? {part : CoordinatePart} {value : String}
    (h : fault? part value = none) : isSegment value = true := by
  unfold fault? at h
  split at h
  · simp at h
  · split at h
    · simp at h
    · simp_all [isSegment]

/-- Checks the three parts in order; the first fault is the answer. -/
def make (space name provider : String) : Except CoordinateError Coordinate :=
  match hs : fault? .space space, hn : fault? .name name, hp : fault? .provider provider with
  | some e, _, _ => .error e
  | none, some e, _ => .error e
  | none, none, some e => .error e
  | none, none, none =>
    .ok ⟨space, name, provider,
      isSegment_of_fault? hs, isSegment_of_fault? hn, isSegment_of_fault? hp⟩

/-- The three parts joined by `/`. -/
def text (c : Coordinate) : String := c.space ++ "/" ++ c.name ++ "/" ++ c.provider

instance : ToString Coordinate := ⟨text⟩

/-- The registry's identifier of one version of a module. -/
def moduleId (c : Coordinate) (v : Version) : String := c.text ++ "/" ++ v.render

def archiveFileName (c : Coordinate) (v : Version) : String :=
  c.space ++ "_" ++ c.name ++ "_" ++ c.provider ++ "_" ++ v.render ++ ".tgz"

end Coordinate

end TagRegistry
