import TagRegistry.Toml.Reader

/-! What one configuration file says, before anything in it is checked.

    hostname = "registry.example.com"
    [[listen]]
    address = "127.0.0.1:8080"
    [[module]]
    namespace = "acme"
    name = "widget"
    provider = "aws"
    git_dir = "/srv/git/widget-aws.git"

Listeners and modules may also be given as the items of arrays `listen` and `module`. An item is
a table of exactly the fields above, or an array that starts with them in this order. -/

namespace TagRegistry

open Toml

/-- A module as declared: where it stands in the registry and where its repository is. -/
structure ModuleSection where
  space : String
  name : String
  provider : String
  gitDir : String
  deriving DecidableEq, Repr

structure ConfigFile where
  hostname : Option String
  listen : List String
  modules : List ModuleSection
  deriving DecidableEq, Repr

namespace ConfigFile

/-- The entries of a table, each under the path of its key. -/
abbrev Entries := List (List String × Value)

def text? : Value → Option String
  | .string text => some text
  | _ => none

def items? : Value → Option (List Value)
  | .array items => some items
  | _ => none

/-- The texts of an item's fields. A table has exactly these fields; what follows them in an
array does not count. -/
def fields? (names : List String) : Value → Option (List String)
  | .table entries =>
    if entries.length = names.length then
      names.mapM fun name => (entries.lookup [name]).bind text?
    else none
  | .array items =>
    if names.length ≤ items.length then (items.take names.length).mapM text? else none
  | _ => none

def listenSection? (item : Value) : Option String :=
  (fields? ["address"] item).bind List.head?

def moduleSection? (item : Value) : Option ModuleSection :=
  match fields? ["namespace", "name", "provider", "git_dir"] item with
  | some [space, name, provider, gitDir] => some ⟨space, name, provider, gitDir⟩
  | _ => none

/-- Sorts statements into the assignments in front of all headers and the elements of arrays
of tables, each with its name. There are no other tables in a configuration. -/
def outline? : List Statement → Option (Entries × List (List String × Entries))
  | [] => some ([], [])
  | .assign key value :: rest =>
    (outline? rest).map fun (entries, elements) => ((key, value) :: entries, elements)
  | .element key :: rest =>
    (outline? rest).map fun (entries, elements) => ([], (key, entries) :: elements)
  | .table _ :: _ => none

/-- The items of one kind, from its array or from its elements. -/
def itemsOf? (name : String) (top : Entries) (elements : List (List String × Entries)) :
    Option (List Value) :=
  let own := (elements.filter fun element => element.1 == [name]).map fun element =>
    Value.table element.2
  match top.lookup [name] with
  | none => some own
  | some value => if own.isEmpty then items? value else none

/-- What the statements of a document say as a configuration. -/
def ofStatements? (statements : List Statement) : Option ConfigFile := do
  let (top, elements) ← outline? statements
  guard (isUnambiguous top)
  guard (top.all fun entry => [["hostname"], ["listen"], ["module"]].contains entry.1)
  guard (elements.all fun element => [["listen"], ["module"]].contains element.1)
  let hostname ← match top.lookup ["hostname"] with
    | none => some none
    | some value => (text? value).map some
  let listen ← (← itemsOf? "listen" top elements).mapM listenSection?
  let modules ← (← itemsOf? "module" top elements).mapM moduleSection?
  return ⟨hostname, listen, modules⟩

def parse? (text : String) : Option ConfigFile := (Toml.parse? text).bind ofStatements?

end ConfigFile

end TagRegistry
