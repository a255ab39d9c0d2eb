import TagRegistry.Json.Printer
import TagRegistry.Sink.Channel
import TagRegistry.Text.Utf8

/-! Answers to requests. -/

namespace TagRegistry

/-- Why a request is not served. The client learns nothing more than this. -/
inductive RequestError where
  /-- There is nothing of this name, or the name is none. -/
  | notFound
  /-- A repository could not be read. -/
  | internal
  deriving DecidableEq, Repr

namespace RequestError

def status : RequestError → Nat
  | .notFound => 404
  | .internal => 500

def message : RequestError → String
  | .notFound => "not found"
  | .internal => "internal error"

end RequestError

inductive ResponseBody where
  | whole (content : Bytes)
  | stream (chunks : List Chunk)
  deriving DecidableEq, Repr

/-- An answer. Names of headers are in lower case. -/
structure Response where
  status : Nat
  headers : List (String × String)
  body : ResponseBody
  deriving DecidableEq, Repr

namespace Response

/-- An answer without headers or body, not even a length: no operation has this path. -/
def unrouted : Response := ⟨404, [], .whole []⟩

/-- An answer with a body of known length. -/
def sized (status : Nat) (headers : List (String × String)) (content : Bytes) : Response :=
  ⟨status, headers ++ [("content-length", toString content.length)], .whole content⟩

def plain (status : Nat) (text : String) : Response :=
  sized status [("content-type", "text/plain; charset=utf-8")] (Utf8.encode text)

def json (v : Json.Value) : Response :=
  sized 200 [("content-type", "application/json")] (Utf8.encode v.render)

def ofError (e : RequestError) : Response := sized e.status [] []

/-- The answer to the same request when only the headers are asked for. -/
def withoutBody (r : Response) : Response := { r with body := .whole [] }

end Response

end TagRegistry
