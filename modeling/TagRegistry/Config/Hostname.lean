import TagRegistry.Text.Blank
import TagRegistry.Text.Decimal
import TagRegistry.Text.Split

/-! The registry's hostname: dot-separated labels of ASCII letters, digits and hyphens, with
an optional port, kept in lower case. -/

namespace TagRegistry

open Text

inductive HostnameFault where
  | emptyHost
  | labelLength
  | labelHyphen
  | labelCharacter
  | port
  deriving DecidableEq, Repr

def HostnameFault.reason : HostnameFault → String
  | .emptyHost => "empty host"
  | .labelLength => "each label must be 1 to 63 characters"
  | .labelHyphen => "labels cannot start or end with '-'"
  | .labelCharacter => "labels may only contain letters, digits and '-'"
  | .port => "port must be a number between 1 and 65535"

namespace Hostname

/-- What is wrong with one label. Its length is counted in octets. -/
def labelFault? (label : List Char) : Option HostnameFault :=
  let size := (String.ofList label).utf8ByteSize
  if size = 0 ∨ 63 < size then some .labelLength
  else if label.head? = some '-' ∨ label.getLast? = some '-' then some .labelHyphen
  else if label.all fun c => c.isAlphanum || c == '-' then none
  else some .labelCharacter

/-- A port is a number from 1 to 65535; one leading `+` is allowed. -/
def isPort (cs : List Char) : Bool :=
  let digits := match cs with
    | '+' :: rest => rest
    | _ => cs
  match Decimal.readBelow? 65536 digits with
  | some n => n != 0
  | none => false

/-- The first fault of a trimmed, lower-case text. -/
def fault? (cs : List Char) : Option HostnameFault :=
  let (host, port) := match cutLast ':' cs with
    | some (host, port) => (host, some port)
    | none => (cs, none)
  if host.isEmpty then some .emptyHost
  else
    match (host.splitOn '.').findSome? labelFault? with
    | some fault => some fault
    | none =>
      match port with
      | some p => if isPort p then none else some .port
      | none => none

end Hostname

structure Hostname where
  chars : List Char
  legal : Hostname.fault? chars = none
  deriving DecidableEq, Repr

namespace Hostname

def text (h : Hostname) : String := String.ofList h.chars

instance : ToString Hostname := ⟨text⟩

/-- White space around the text is dropped, capital letters become small ones. -/
def normalize (raw : String) : List Char := (trimBlank raw.toList).map Char.toLower

def parse (raw : String) : Except HostnameFault Hostname :=
  match h : fault? (normalize raw) with
  | none => .ok ⟨normalize raw, h⟩
  | some fault => .error fault

end Hostname

end TagRegistry
