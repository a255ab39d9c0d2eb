import TagRegistry.CommandLine.Invocation
import TagRegistry.CommandLine.Report
import TagRegistry.Config.Load
import TagRegistry.Disk.Repositories

/-! Running a command.

`check` loads the configuration and prints a report; `serve` loads it and binds the addresses
to listen on, of which one is enough. -/

namespace TagRegistry

inductive RunError where
  | configuration (cause : ConfigError)
  | unreadableModules (count : Nat)
  | noListeners
  | noneBound (count : Nat)
  deriving DecidableEq, Repr

/-- The error of the system behind a fault of the configuration. -/
def ConfigError.source? : ConfigError → Option DiskError
  | .unreadable _ cause => some cause
  | _ => none

namespace RunError

def message : RunError → String
  | .configuration cause =>
    ": ".intercalate ("Failed to load configuration" :: cause.message ::
      (cause.source?.map DiskError.message).toList)
  | .unreadableModules count => s!"{count} module repositories could not be read"
  | .noListeners => "No listeners configured. Add a [[listen]] block with an address."
  | .noneBound count => s!"none of the {count} configured listeners could be bound"

end RunError

/-- What a run leaves: the text that it prints, and its error. -/
structure RunResult where
  output : String
  error : Option RunError
  deriving DecidableEq, Repr

namespace RunResult

def exitCode (r : RunResult) : Nat := if r.error.isSome then 1 else 0

def errorLine (r : RunResult) : Option String := r.error.map fun e => "error: " ++ e.message

end RunResult

namespace Invocation

def check (access : StoreAccess) (c : Config) : RunResult :=
  let report := Report.of access c
  ⟨report.text, if report.unreadable = 0 then none else some (.unreadableModules report.unreadable)⟩

/-- Why a configuration cannot be served, where `binds` tells which addresses can be bound. -/
def serveError? (binds : ListenAddress → Bool) (c : Config) : Option RunError :=
  if c.listeners.isEmpty then some .noListeners
  else if c.listeners.any binds then none
  else some (.noneBound c.listeners.length)

def run (inv : Invocation) (d : Disk) (binds : ListenAddress → Bool) : RunResult :=
  match Config.load d inv.configs with
  | .error cause => ⟨"", some (.configuration cause)⟩
  | .ok c =>
    match inv.command with
    | .check => check d.openStore c
    | .serve => ⟨"", serveError? binds c⟩

end Invocation

end TagRegistry
