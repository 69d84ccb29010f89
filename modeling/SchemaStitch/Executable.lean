import SchemaStitch.Scalar
import SchemaStitch.ResolverMap.Basic
import SchemaStitch.Resolver.Run

/-!
Executable schemas: a valid schema with resolvers bound to its fields and configurations to its
scalars.
-/
namespace SchemaStitch

open Sdl

/-- A valid schema with bound resolvers, by type and field, and scalar configurations. It counts as
executable once a resolver map has been bound, even if no resolver of the map found its field. -/
structure Executable where
  schema : Schema
  bound : Assoc (Assoc Resolver)
  scalars : ScalarConfigs
  isExecutable : Bool
  deriving Inhabited

namespace Executable

/-- A schema to which nothing is bound. -/
def ofSchema (s : Schema) : Executable := ⟨s, [], [], false⟩

/-- Binds a resolver to a field. -/
def bind (type field : Name) (r : Resolver) (e : Executable) : Executable :=
  let fields := (Assoc.get? e.bound type).getD []
  { e with bound := Assoc.insert e.bound type (Assoc.insert fields field r) }

/-- The resolver that a map has for a field: the one in the branch of its type, else, for the fields
of a root type, the one that stands flat. -/
def choose? (s : Schema) (map : ResolverMap) (type field : Name) : Option Resolver :=
  map.resolver? type field <|> if s.isRoot type then map.flat? field else none

/-- Binds the resolvers of a map to the fields of the schema, in the schema's order. -/
def bindMap (map : ResolverMap) (e : Executable) : Executable :=
  let bindField (e : Executable) (place : SchemaType × Field) : Executable :=
    match choose? e.schema map place.1.name place.2.name with
    | some r => e.bind place.1.name place.2.name r
    | none => e
  { e.schema.fieldsByType.foldl bindField e with isExecutable := true }

/-- The resolver bound to a field. -/
def resolver? (e : Executable) (type field : Name) : Option Resolver :=
  (Assoc.get? e.bound type).bind fun fields => Assoc.get? fields field

/-- What is bound to a field is found there, and no other field is changed. -/
@[simp] theorem resolver?_bind (e : Executable) (type field : Name) (r : Resolver)
    (otherType otherField : Name) :
    (e.bind type field r).resolver? otherType otherField =
      if type = otherType ∧ field = otherField then some r
      else e.resolver? otherType otherField := by
  by_cases sameType : type = otherType
  · subst sameType
    cases present : Assoc.get? e.bound type <;>
      by_cases sameField : field = otherField <;>
      simp [bind, resolver?, present, sameField, Assoc.get?]
  · simp [bind, resolver?, sameType]

/-- How many resolvers are bound. -/
def resolverCount (e : Executable) : Nat := (e.bound.flatMap fun (_, fields) => fields).length

/-- The bound resolvers as a map. -/
def toMap (e : Executable) : ResolverMap :=
  e.bound.foldl (fun map (type, fields) => map.withType type fields) .nil

/-- Attaches a configuration to a scalar of the schema; it is dropped, and the answer is no, if the
schema has no such scalar. -/
def setScalar (name : Name) (c : ScalarConfig) (e : Executable) : Executable × Bool :=
  if e.schema.isScalar name then ({ e with scalars := Assoc.insert e.scalars name c }, true)
  else (e, false)

/-- Resolves a field: by the resolver bound to it, else from the parent value. Names that the call
leaves empty are filled in, and the call sees this schema unless a schema is there already. -/
def resolve (e : Executable) (type field : Name) (call : Call) : Act (Except Failure Json) := do
  let info := call.info
  let info := if info.parentType.isEmpty then { info with parentType := type } else info
  let info := if info.fieldName.isEmpty then { info with fieldName := field } else info
  if (← info.slotData).schema.isNone then info.setSchema e.schema
  let call := { call with info }
  match e.resolver? type field with
  | some r => r.invoke call
  | none => (Resolver.function default Resolver.readParent).invoke call

/-- The text of scalar configurations in diagnostics. -/
def inspectScalars (scalars : ScalarConfigs) : String :=
  Text.table (scalars.map fun (name, c) => (name, c.inspect))

/-- The text of an executable schema in diagnostics. -/
def inspect (e : Executable) : String :=
  let fields (fs : Assoc Resolver) : String := Text.table (fs.map fun (f, r) => (f, r.inspect))
  Text.record "ExecutableSchema"
    [("types", toString e.schema.typeCount),
      ("resolvers", Text.table (e.bound.map fun (type, fs) => (type, fields fs))),
      ("scalars", inspectScalars e.scalars), ("executable", Text.truth e.isExecutable)]

end Executable
end SchemaStitch
