import SchemaStitch.Bundle.Merge
import SchemaStitch.Yaml.Node

/-!
Configurations of merges: the options that can be written down, read from YAML. What is not written
has its default, and nothing else may be written.
-/
namespace SchemaStitch

/-- The options of a merge that can be written down. -/
structure MergeConfig where
  injectSchema : Bool
  createMissing : Bool
  deriving DecidableEq

namespace MergeConfig

/-- The configuration in which nothing is written. -/
def standard : MergeConfig := ⟨true, false⟩

/-- The truth value of a node: the plain words only, or any text that is tagged as one. -/
def truth? : Yaml.Node → Option Bool
  | .scalar text plain tag =>
    let admitted := match tag with
      | some tag => tag == "!!bool"
      | none => plain
    if !admitted then none
    else if text == "true" then some true
    else if text == "false" then some false
    else none
  | _ => none

/-- Reads the pairs of a mapping; each option may be given once. -/
def ofPairs? (inject create : Option Bool) : List (Yaml.Node × Yaml.Node) → Option MergeConfig
  | [] => some ⟨inject.getD standard.injectSchema, create.getD standard.createMissing⟩
  | (.scalar key _ _, value) :: rest =>
    if key == "inject_merged_schema" && inject.isNone then
      match truth? value with
      | some b => ofPairs? (some b) create rest
      | none => none
    else if key == "create_missing_resolvers" && create.isNone then
      match truth? value with
      | some b => ofPairs? inject (some b) rest
      | none => none
    else none
  | _ => none

/-- The configuration that a node spells: a mapping, or the options in their order. -/
def ofNode? : Yaml.Node → Option MergeConfig
  | .mapping pairs => ofPairs? none none pairs
  | .sequence [] => some standard
  | .sequence [inject] => (truth? inject).map fun b => { standard with injectSchema := b }
  | .sequence [inject, create] => do return ⟨← truth? inject, ← truth? create⟩
  | _ => none

/-- The configuration that a text spells. -/
def ofYaml (text : String) : Except StitchError MergeConfig :=
  match (Yaml.parse? text).bind ofNode? with
  | some c => .ok c
  | none => .error .invalidConfig

/-- A configuration as JSON. -/
def toJson (c : MergeConfig) : Json :=
  .object [("inject_merged_schema", .bool c.injectSchema),
    ("create_missing_resolvers", .bool c.createMissing)]

/-- The merge options of a configuration. -/
def toOptions {m : Type → Type} [Monad m] (c : MergeConfig) : MergeOptions m :=
  ⟨.keepRight, [], c.injectSchema, c.createMissing⟩

/-- The JSON schema of one option. -/
def optionSchema (description : String) (value : Bool) : Json :=
  .object
    [("description", .string description), ("default", .bool value), ("type", .string "boolean")]

/-- The JSON schema of configurations. -/
def jsonSchema : Json :=
  .object
    [("$schema", .string "http://json-schema.org/draft-07/schema#"),
      ("title", .string "MergeConfig"),
      ("description",
        .string "The serializable part of [\x60MergeOptions\x60](crate::merge::MergeOptions)."),
      ("type", .string "object"),
      ("properties", .object
        [("inject_merged_schema", optionSchema
          "Wrap every merged resolver so that it sees the merged schema; defaults to true"
          standard.injectSchema),
          ("create_missing_resolvers", optionSchema
            "Bind the default field resolver to fields without a resolver"
            standard.createMissing)]),
      ("additionalProperties", .bool false)]

end MergeConfig
end SchemaStitch
