import SchemaStitch.Schema.Basic

/-!
The document of a schema: the schema definition unless it goes without saying, then directives, then
types, each followed by its extensions.
-/
namespace SchemaStitch

open Sdl

namespace SchemaType

/-- The extensions in the order in which they are written: those that apply directives, then of the
rest those that add interfaces, then those that add members. -/
def orderedExtensions (t : SchemaType) : List TypeDefinition :=
  let applies (e : TypeDefinition) : Bool := !e.directives.isEmpty
  let implements (e : TypeDefinition) : Bool := !e.body.interfaces.isEmpty
  t.extensions.filter applies ++
  t.extensions.filter (fun e => !applies e && implements e) ++
  t.extensions.filter (fun e => !applies e && !implements e)

/-- The definition of the type, then its extensions. -/
def toDocument (t : SchemaType) : Document :=
  .type t.definition :: t.orderedExtensions.map .typeExtension

end SchemaType

namespace Schema

/-- Whether the root operations are those that go without saying. -/
def isImplied (s : Schema) : Bool :=
  s.base.description.isNone && s.base.directives.isEmpty && s.extensions.isEmpty &&
  OperationKind.all.all fun kind =>
    match s.root? kind with
    | some name => name == kind.defaultRoot
    | none => !s.types.any fun t => t.name == kind.defaultRoot && t.kind == .object

/-- Root operations in their conventional order. -/
def sortOperations (operations : List (OperationKind × Name)) : List (OperationKind × Name) :=
  OperationKind.all.flatMap fun kind => operations.filter (·.1 == kind)

/-- The schema definition and its extensions: those that apply directives first, then the rest in
the order of the operations they add. A definition that holds nothing is left out. -/
def schemaPart (s : Schema) : Document :=
  if s.isImplied then []
  else
    let sorted (d : SchemaDefinition) : SchemaDefinition :=
      { d with operations := sortOperations d.operations }
    let applies (e : SchemaDefinition) : Bool := !e.directives.isEmpty
    let rest := s.extensions.filter fun e => !applies e
    let rank (e : SchemaDefinition) : Nat :=
      OperationKind.all.findIdx fun kind => e.operations.any (·.1 == kind)
    let ranked := [0, 1, 2].flatMap fun n => rest.filter fun e => rank e == n
    let hollow :=
      s.base.description.isNone && s.base.directives.isEmpty && s.base.operations.isEmpty
    (if hollow then [] else [.schema (sorted s.base)]) ++
    (s.extensions.filter applies ++ ranked).map fun e => .schemaExtension (sorted e)

/-- The document of a schema. -/
def toDocument (s : Schema) : Document :=
  s.schemaPart ++ s.directives.map .directive ++
  s.standard.flatMap (fun t => t.orderedExtensions.map .typeExtension) ++
  s.types.flatMap (·.toDocument)

end Schema
end SchemaStitch
