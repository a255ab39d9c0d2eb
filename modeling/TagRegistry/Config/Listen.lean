import TagRegistry.Text.Blank

/-! Addresses to listen on. -/

namespace TagRegistry

open Text

/-- Where the server listens: `host:port`, or the path of a Unix domain socket. -/
inductive ListenAddress where
  | tcp (address : String)
  | unix (path : String)
  deriving DecidableEq, Repr

namespace ListenAddress

/-- Reads an address; none if it is blank. What starts with `/` is a socket path. -/
def parse? (raw : String) : Option ListenAddress :=
  match trimBlank raw.toList with
  | [] => none
  | '/' :: rest => some (.unix (String.ofList ('/' :: rest)))
  | cs => some (.tcp (String.ofList cs))

def text : ListenAddress → String
  | .tcp address => "tcp://" ++ address
  | .unix path => "unix://" ++ path

instance : ToString ListenAddress := ⟨text⟩

end ListenAddress

end TagRegistry
