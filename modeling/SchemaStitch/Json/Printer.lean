import SchemaStitch.Json.Basic
import SchemaStitch.Text.Quoted

/-!
Texts of JSON values: compact JSON, with the fields of objects in their order, and the form that
diagnostics use, which names the kind of each value.
-/
namespace SchemaStitch.Json

/-- A character inside a JSON string. -/
def stringChar (c : Char) : String :=
  if c == '"' then "\\\""
  else if c == '\\' then "\\\\"
  else if c == '\n' then "\\n"
  else if c == '\r' then "\\r"
  else if c == '\t' then "\\t"
  else if c.toNat == 0x8 then "\\b"
  else if c.toNat == 0xC then "\\f"
  else if c.toNat < 0x10 then "\\u000" ++ Text.hex c.toNat
  else if c.toNat < 0x20 then "\\u00" ++ Text.hex c.toNat
  else c.toString

/-- A JSON string. -/
def stringText (s : String) : String := "\"" ++ String.join (s.toList.map stringChar) ++ "\""

mutual

/-- The compact JSON text of a value. -/
def render : Json → String
  | .null => "null"
  | .bool b => Text.truth b
  | .number n => n.render
  | .string s => stringText s
  | .array items => "[" ++ ",".intercalate (renderItems items) ++ "]"
  | .object fields => "\x7b" ++ ",".intercalate (renderFields fields) ++ "\x7d"

/-- The texts of the items of an array. -/
def renderItems : List Json → List String
  | [] => []
  | v :: rest => v.render :: renderItems rest

/-- The texts of the fields of an object. -/
def renderFields : List (String × Json) → List String
  | [] => []
  | (k, v) :: rest => (stringText k ++ ":" ++ v.render) :: renderFields rest

end

mutual

/-- The text of a value in diagnostics. -/
def inspect : Json → String
  | .null => "Null"
  | .bool b => "Bool(" ++ Text.truth b ++ ")"
  | .number n => "Number(" ++ n.render ++ ")"
  | .string s => "String(" ++ Text.quoted s ++ ")"
  | .array items => "Array " ++ Text.listed (inspectItems items)
  | .object fields => "Object " ++ Text.table (inspectFields fields)

/-- The items of an array in diagnostics. -/
def inspectItems : List Json → List String
  | [] => []
  | v :: rest => v.inspect :: inspectItems rest

/-- The fields of an object in diagnostics. -/
def inspectFields : List (String × Json) → List (String × String)
  | [] => []
  | (k, v) :: rest => (k, v.inspect) :: inspectFields rest

end

end SchemaStitch.Json
