import SchemaStitch.Json.Printer
import SchemaStitch.Sdl.Printer

/-!
Behaviour of custom scalars: how values are serialized and read. A function that is not given lets
values pass unchanged; without a reader of literals no literal can be read.
-/
namespace SchemaStitch

/-- The functions of a scalar, each optional; a failure is told by its text. -/
structure ScalarConfig where
  serialize : Option (Json → Except String Json)
  parseValue : Option (Json → Except String Json)
  parseLiteral : Option (Sdl.Literal → Except String Json)
  deriving Inhabited

/-- Configurations by the names of scalars. -/
abbrev ScalarConfigs := Assoc ScalarConfig

namespace ScalarConfig

/-- The configuration without any function. -/
def unset : ScalarConfig := ⟨none, none, none⟩

/-- Whether any function is given. -/
def isConfigured (c : ScalarConfig) : Bool :=
  c.serialize.isSome || c.parseValue.isSome || c.parseLiteral.isSome

/-- Serializes a value. -/
def serializeValue (c : ScalarConfig) (v : Json) : Except String Json :=
  match c.serialize with
  | some f => f v
  | none => .ok v

/-- Reads a value. -/
def readValue (c : ScalarConfig) (v : Json) : Except String Json :=
  match c.parseValue with
  | some f => f v
  | none => .ok v

/-- Reads a literal. -/
def readLiteral (c : ScalarConfig) (v : Sdl.Literal) : Except String Json :=
  match c.parseLiteral with
  | some f => f v
  | none => .error ("no literal parser for " ++ v.print (.wide 0))

/-- The text of a configuration in diagnostics: which functions are given. -/
def inspect (c : ScalarConfig) : String :=
  Text.record "ScalarConfig"
    [("serialize", Text.truth c.serialize.isSome), ("parse_value", Text.truth c.parseValue.isSome),
      ("parse_literal", Text.truth c.parseLiteral.isSome)]

end ScalarConfig
end SchemaStitch
