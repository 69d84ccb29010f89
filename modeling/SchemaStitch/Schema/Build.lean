import SchemaStitch.Schema.Basic

/-!
Building a schema from a document. Extensions are applied wherever they stand. An extension without
the type it extends refuses the document, unless such orphans are adopted as types of their own,
which then follow all others.
-/
namespace SchemaStitch

open Sdl

/-- What becomes of an extension of a type that is not defined. -/
inductive OrphanPolicy where
  | refuse
  | adopt
  deriving DecidableEq

namespace Schema

/-- Whether no name occurs twice. -/
def distinct (names : List Name) : Bool :=
  match names with
  | [] => true
  | n :: rest => !rest.contains n && distinct rest

/-- The schema definitions of a document. -/
def schemaDefinitions (d : Document) : List SchemaDefinition :=
  d.filterMap fun | .schema s => some s | _ => none

/-- The schema extensions of a document. -/
def schemaExtensions (d : Document) : List SchemaDefinition :=
  d.filterMap fun | .schemaExtension s => some s | _ => none

/-- The type definitions of a document. -/
def typeDefinitions (d : Document) : List TypeDefinition :=
  d.filterMap fun | .type t => some t | _ => none

/-- The type extensions of a document. -/
def typeExtensions (d : Document) : List TypeDefinition :=
  d.filterMap fun | .typeExtension t => some t | _ => none

/-- The directive definitions of a document. -/
def directiveDefinitions (d : Document) : List DirectiveDefinition :=
  d.filterMap fun | .directive t => some t | _ => none

/-- Whether a document holds operations or fragments. -/
def hasExecutable (d : Document) : Bool :=
  d.any fun | .operation _ | .fragment _ => true | _ => false

/-- A type definition with the extensions of its name. -/
def withExtensions (extensions : List TypeDefinition) (t : TypeDefinition) : SchemaType :=
  ⟨t, extensions.filter (·.name == t.name)⟩

/-- The built-in scalars as definitions. -/
def standardDefinitions : List TypeDefinition :=
  standardScalars.map fun name => ⟨none, name, [], .scalar⟩

/-- The types that orphan extensions make, one per name in the order of the names' first extensions.
-/
def adoptedTypes (orphans : List TypeDefinition) : List SchemaType :=
  let firsts := orphans.foldl
    (fun acc e => if acc.any (·.name == e.name) then acc else acc ++ [e]) []
  firsts.map fun e => withExtensions orphans ⟨none, e.name, [], .empty e.body.kind⟩

/-- Whether all parts of a type are of one kind and nothing in it is defined twice. -/
def isCoherent (t : SchemaType) : Bool :=
  t.extensions.all (fun e => e.body.kind == t.kind) &&
  distinct t.body.interfaces && distinct t.body.memberNames

/-- The root operations that go without saying: those whose conventional type is an object. -/
def impliedOperations (types : List SchemaType) : List (OperationKind × Name) :=
  (OperationKind.all.map fun kind => (kind, kind.defaultRoot)).filter fun (_, name) =>
    types.any fun t => t.name == name && t.kind == .object

/-- Builds the schema of a document. Nothing is checked beyond what building needs: a place for
every extension and one definition for every name. -/
def build? (policy : OrphanPolicy) (d : Document) : Option Schema := do
  if hasExecutable d then none
  let definitions := typeDefinitions d
  let extensions := typeExtensions d
  let standard := standardDefinitions.map (withExtensions extensions)
  let known := definitions.map (·.name)
  if !distinct known || known.any (standardScalars ++ introspectionTypes).contains then none
  let orphans := extensions.filter fun e => !(known ++ standardScalars).contains e.name
  if policy == .refuse && !orphans.isEmpty then none
  let types := definitions.map (withExtensions extensions) ++ adoptedTypes orphans
  if !(standard ++ types).all isCoherent then none
  let directives := directiveDefinitions d
  if !distinct (directives.map (·.name)) then none
  let added := schemaExtensions d
  let base ← match schemaDefinitions d with
    | [s] => some s
    | [] =>
      let implied := impliedOperations types
      let stated := policy == .adopt && added.any fun e => !e.operations.isEmpty
      if policy == .refuse && implied.isEmpty && !added.isEmpty then none
      else some ⟨none, [], if stated then [] else implied⟩
    | _ => none
  let schema : Schema := ⟨base, added, directives, standard, types⟩
  if !distinct (schema.operations.map fun (kind, _) => kind.word) then none
  return schema

end Schema
end SchemaStitch
