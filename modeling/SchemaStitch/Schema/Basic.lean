import SchemaStitch.Sdl.Document

/-!
Schemas: the types, directives and root operations that a document defines, with extensions applied
to what they extend but still told apart from it.
-/
namespace SchemaStitch

open Sdl

/-- A type with the extensions that were applied to it. -/
structure SchemaType where
  definition : TypeDefinition
  extensions : List TypeDefinition
  deriving Inhabited

namespace SchemaType

/-- The name of the type. -/
def name (t : SchemaType) : Name := t.definition.name

/-- All directives applied to the type. -/
def directives (t : SchemaType) : List Directive :=
  t.definition.directives ++ t.extensions.flatMap (·.directives)

/-- Everything the type consists of. -/
def body (t : SchemaType) : TypeBody :=
  t.extensions.foldl (fun body e => body.append e.body) t.definition.body

/-- The kind of the type. -/
def kind (t : SchemaType) : TypeKind := t.definition.body.kind

end SchemaType

/-- A schema. `base` is what is said outside of extensions: the written schema definition, or the
root operations that go without saying. `standard` holds the built-in scalar types. -/
structure Schema where
  base : SchemaDefinition
  extensions : List SchemaDefinition
  directives : List DirectiveDefinition
  standard : List SchemaType
  types : List SchemaType
  deriving Inhabited

namespace Schema

/-- The names of the built-in scalar types. -/
def standardScalars : List Name := ["Int", "Float", "String", "Boolean", "ID"]

/-- The names of the types that describe schemas themselves. -/
def introspectionTypes : List Name :=
  ["__Schema", "__Type", "__TypeKind", "__Field", "__InputValue", "__EnumValue", "__Directive",
    "__DirectiveLocation"]

/-- Those of the types that describe schemas which are enums. -/
def introspectionEnums : List Name := ["__TypeKind", "__DirectiveLocation"]

/-- All directives applied to the schema. -/
def appliedDirectives (s : Schema) : List Directive :=
  s.base.directives ++ s.extensions.flatMap (·.directives)

/-- The root operations in the order in which they were written. -/
def operations (s : Schema) : List (OperationKind × Name) :=
  s.base.operations ++ s.extensions.flatMap (·.operations)

/-- The root type of a kind of operation. -/
def root? (s : Schema) (kind : OperationKind) : Option Name := s.operations.lookup kind

/-- The root operations in their conventional order. -/
def roots (s : Schema) : List (OperationKind × Name) :=
  OperationKind.all.filterMap fun kind => (s.root? kind).map fun name => (kind, name)

/-- Whether a type is the root of some operation. -/
def isRoot (s : Schema) (name : Name) : Bool := s.roots.any (·.2 == name)

/-- The names of the types that are not built in, in order. -/
def typeNames (s : Schema) : List Name := s.types.map (·.name)

/-- A type of the schema, built-in scalars included. -/
def type? (s : Schema) (name : Name) : Option SchemaType :=
  (s.types ++ s.standard).find? (·.name == name)

/-- Whether a name is that of a scalar type, built in or not. -/
def isScalar (s : Schema) (name : Name) : Bool :=
  match s.type? name with
  | some t => t.kind == .scalar
  | none => false

/-- The fields of the objects and interfaces that are not built in, in order, with their types. -/
def fieldsByType (s : Schema) : List (SchemaType × Field) :=
  s.types.flatMap fun t => t.body.fields.map fun f => (t, f)

/-- The type references of all fields, arguments and input fields. -/
def references (s : Schema) : List TypeRef :=
  let ofInputs (fs : List InputField) : List TypeRef := fs.map (·.type)
  s.directives.flatMap (fun d => ofInputs d.arguments) ++
  s.types.flatMap fun t =>
    t.body.fields.flatMap (fun f => f.type :: ofInputs f.arguments) ++ ofInputs t.body.inputFields

/-- Whether a built-in scalar is in use. Descriptions of schemas use strings and truth values. -/
def usesStandard (s : Schema) (name : Name) : Bool :=
  name == "String" || name == "Boolean" || s.references.any (·.innerName == name)

/-- How many types the schema has: its own, those that describe schemas and the built-in scalars. -/
def typeCount (s : Schema) : Nat :=
  s.types.length + introspectionTypes.length + s.standard.length

end Schema
end SchemaStitch
