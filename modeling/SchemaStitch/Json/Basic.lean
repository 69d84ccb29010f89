import SchemaStitch.Assoc
import SchemaStitch.Json.Number

/-!
JSON values. Objects keep their fields in insertion order; no operation here makes two fields of one
name.
-/
namespace SchemaStitch

/-- A JSON value; the fields of an object are in insertion order. -/
inductive Json where
  | null
  | bool (b : Bool)
  | number (n : Json.Number)
  | string (s : String)
  | array (items : List Json)
  | object (fields : List (String × Json))
  deriving Inhabited

namespace Json

/-- The fields of an object, in insertion order. -/
abbrev Fields := Assoc Json

/-- The value of a field, if the value is an object that has it. -/
def field? (key : String) : Json → Option Json
  | .object fields => Assoc.get? fields key
  | _ => none

/-- Combines a result with the results before it: an object is laid over an object, later fields
winning in the place of the earlier ones; anything else replaces what was there. -/
def combine : Option Json → Json → Json
  | some (.object earlier), .object later => .object (Assoc.overlay earlier later)
  | _, later => later

end Json
end SchemaStitch
