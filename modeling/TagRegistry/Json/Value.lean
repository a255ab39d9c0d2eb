import TagRegistry.Json.Quoted

/-! JSON values, with strings and numbers as they are written. -/

namespace TagRegistry.Json

/-- A value. Fields of objects keep their order, and of two with one name both are kept. -/
inductive Value where
  | null
  | bool (b : Bool)
  | number (written : List Char)
  | string (written : List Char)
  | array (items : List Value)
  | object (fields : List (List Char × Value))

namespace Value

def ofText (text : String) : Value := .string (escape text.toList)

def record (fields : List (String × Value)) : Value :=
  .object (fields.map fun field => (escape field.1.toList, field.2))

def text? : Value → Option String
  | .string written => (unescape? written).map String.ofList
  | _ => none

def items? : Value → Option (List Value)
  | .array items => some items
  | _ => none

/-- The fields of an object by name; none if a name means no text. -/
def named? (fields : List (List Char × Value)) : Option (List (String × Value)) :=
  fields.mapM fun field => do return (String.ofList (← unescape? field.1), field.2)

/-- A record's fields in the given order, as far as they are there. An object may hold other
fields too, but none of these twice; an array holds the fields in order, and no more. -/
def fields? (names : List String) : Value → Option (List (Option Value))
  | .object fields => do
    let fields ← named? fields
    guard (names.all fun name => fields.countP (fun field => field.1 == name) ≤ 1)
    return names.map fun name => fields.lookup name
  | .array items =>
    if items.length ≤ names.length then
      some (items.map some ++ List.replicate (names.length - items.length) none)
    else none
  | _ => none

end Value

end TagRegistry.Json
