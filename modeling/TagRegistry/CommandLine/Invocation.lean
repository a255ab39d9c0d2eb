import TagRegistry.Bytes

/-! What a command line asks for.

    [--debug] serve CONFIG...
    [--debug] check CONFIG...
    help [COMMAND]

Arguments are read from left to right, and the first one that ends the reading decides. -/

namespace TagRegistry

open Bytes (ascii)

/-- Why nothing is run. -/
inductive Usage where
  | help
  | version
  | error
  deriving DecidableEq, Repr

def Usage.exitCode : Usage → Nat
  | .error => 2
  | _ => 0

inductive Command where
  | serve
  | check
  deriving DecidableEq, Repr

structure Invocation where
  debug : Bool
  command : Command
  configs : List Bytes
  deriving DecidableEq, Repr

namespace Invocation

inductive Flag where
  | debug
  | help
  | version
  deriving DecidableEq, Repr

/-- Does an argument start like a flag? A dash alone does not. -/
def isFlag : Bytes → Bool
  | 45 :: _ :: _ => true
  | _ => false

/-- The flag that an argument sets; of several letters behind one dash the first one counts. The
version is only told in front of a command. -/
def flagOf? (front : Bool) (arg : Bytes) : Option Flag :=
  if arg = ascii "--debug" then some .debug
  else if arg = ascii "--help" then some .help
  else if arg = ascii "--version" ∧ front then some .version
  else
    match arg with
    | 45 :: 104 :: _ => some .help
    | 45 :: 86 :: _ => if front then some .version else none
    | _ => none

/-- What ends the options: everything behind it is a path. -/
def separator : Bytes := ascii "--"

/-- Reads what follows a command: paths, none of them empty, and `--debug` at most once. -/
def readPaths (debug : Bool) : List Bytes → Except Usage (Bool × List Bytes)
  | [] => .ok (debug, [])
  | arg :: rest =>
    if arg = separator then
      if rest.contains [] then .error .error else .ok (debug, rest)
    else if isFlag arg then
      match flagOf? false arg with
      | some .debug => if debug then .error .error else readPaths true rest
      | some .help => .error .help
      | _ => .error .error
    else if arg.isEmpty then .error .error
    else (readPaths debug rest).map fun (debug, paths) => (debug, arg :: paths)

def readCommand (debug : Bool) (command : Command) (args : List Bytes) :
    Except Usage Invocation :=
  match readPaths false args with
  | .error usage => .error usage
  | .ok (_, []) => .error .error
  | .ok (later, paths) => .ok ⟨debug || later, command, paths⟩

/-- What follows `help`: nothing, or the name of a command. -/
def readHelp : List Bytes → Usage
  | [] => .help
  | [name] => if [ascii "serve", ascii "check", ascii "help"].contains name then .help else .error
  | _ => .error

/-- Reads a command line in front of its command. -/
def readFront (debug : Bool) : List Bytes → Except Usage Invocation
  | [] => .error .error
  | arg :: rest =>
    if arg = ascii "serve" then readCommand debug .serve rest
    else if arg = ascii "check" then readCommand debug .check rest
    else if arg = ascii "help" then .error (readHelp rest)
    else
      match flagOf? true arg with
      | some .debug => if debug then .error .error else readFront true rest
      | some .help => .error .help
      | some .version => .error .version
      | none => .error .error

def read (args : List Bytes) : Except Usage Invocation := readFront false args

end Invocation

end TagRegistry
