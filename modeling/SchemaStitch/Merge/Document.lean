import SchemaStitch.Merge.Combine

/-!
Merging documents. Each side is consolidated first: extensions become definitions and definitions
with one key are folded into the first of them. Then the right side is folded into the left one.
-/
namespace SchemaStitch

open Sdl

/-- What a definition defines. Operations and fragments share their names. -/
inductive Definition.Key where
  | schema
  | type (name : Name)
  | directive (name : Name)
  | executable (name : Option Name)
  deriving DecidableEq, Inhabited

/-- Whether two keys are of the same thing. An operation without a name is like nothing, not even
itself. -/
def Definition.Key.matches (a b : Definition.Key) : Bool := a != .executable none && a == b

namespace Sdl

/-- The key of a definition; an extension has the key of what it extends. -/
def Definition.key : Definition → Definition.Key
  | .schema _ | .schemaExtension _ => .schema
  | .type t | .typeExtension t => .type t.name
  | .directive d => .directive d.name
  | .operation o => .executable o.name
  | .fragment f => .executable (some f.name)

/-- An extension as a definition without a description. -/
def Definition.asDefinition : Definition → Definition
  | .schemaExtension s => .schema { s with description := none }
  | .typeExtension t => .type { t with description := none }
  | d => d

end Sdl

namespace Merge

variable {m : Type → Type} [Monad m]

/-- Merges two schema definitions. -/
def schemas (p : ConflictPolicy m) (left right : SchemaDefinition) : m SchemaDefinition := do
  let directives ← combineDirectives p "schema" left.directives right.directives
  return ⟨left.description <|> right.description, directives,
    combineOperations left.operations right.operations⟩

/-- Merges two type definitions of one name, directives before members; of types of different kinds
the right one stands. -/
def types (p : ConflictPolicy m) (left right : TypeDefinition) : m TypeDefinition :=
  match combineBodies? p left.name left.body right.body with
  | none => return right
  | some body => do
    let directives ← combineDirectives p left.name left.directives right.directives
    return ⟨left.description <|> right.description, left.name, directives, ← body⟩

/-- Merges two definitions with one key. Directive definitions, operations and fragments have no
members to merge, so the left one stands; of definitions of different kinds the right one does. -/
def definitions (p : ConflictPolicy m) : Definition → Definition → m Definition
  | .schema l, .schema r => .schema <$> schemas p l r
  | .type l, .type r => .type <$> types p l r
  | .directive l, .directive _ => return .directive l
  | .operation l, .operation _ => return .operation l
  | .fragment l, .fragment _ => return .fragment l
  | _, right => return right

/-- Folds a definition into a document: into the first one with its key, else at the end. -/
def fold (p : ConflictPolicy m) (d : Definition) : Document → m Document
  | [] => return [d]
  | present :: rest =>
    if d.key.matches present.key then return (← definitions p present d) :: rest
    else return present :: (← fold p d rest)

/-- Folds definitions into a document, in order. -/
def foldAll (p : ConflictPolicy m) (into : Document) : Document → m Document
  | [] => return into
  | d :: rest => do foldAll p (← fold p d into) rest

end Merge

namespace Sdl.Document

variable {m : Type → Type} [Monad m]

/-- The document with extensions as definitions and one definition for each key. -/
def consolidate (p : ConflictPolicy m) (d : Document) : m Document :=
  Merge.foldAll p [] (d.map Definition.asDefinition)

/-- Merges two documents. What one side alone defines is kept as it is there. -/
def merge (p : ConflictPolicy m) (left right : Document) : m Document := do
  let into ← left.consolidate p
  Merge.foldAll p into (← right.consolidate p)

/-- The document with one definition for each key, where the later of two items stands. -/
def consolidated (d : Document) : Document := Id.run (d.consolidate ConflictPolicy.keepRight)

end Sdl.Document

/-- The scalar configurations of a merged document: for each scalar that it defines and that one
side configures, what the policy answers. -/
def mergeScalars {m : Type → Type} [Monad m] (p : ConflictPolicy m) (left right : ScalarConfigs)
    (merged : Document) : m ScalarConfigs :=
  go [] merged
where
  /-- Goes through the definitions with the configurations settled so far. -/
  go (settled : ScalarConfigs) : Document → m ScalarConfigs
    | [] => return settled
    | .type ⟨_, name, _, .scalar⟩ :: rest => do
      match Assoc.get? left name, Assoc.get? right name with
      | none, none => go settled rest
      | l, r =>
        match ← p.scalar name l r with
        | some config => go (Assoc.insert settled name config) rest
        | none => go settled rest
    | _ :: rest => go settled rest

end SchemaStitch
