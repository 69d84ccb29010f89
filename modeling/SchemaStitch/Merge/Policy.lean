import SchemaStitch.Scalar

/-!
Conflict policies: what stands in a merged document when both sides define the same item. A policy
may act in any monad, so what it is asked, how often and in which order can be observed.
-/
namespace SchemaStitch

open Sdl

/-- A field in conflict: one of an object or interface, or one of an input object. -/
inductive FieldNode where
  | output (f : Field)
  | input (f : InputField)
  deriving Inhabited

/-- The name of a field in conflict. -/
def FieldNode.name : FieldNode → Name
  | .output f => f.name
  | .input f => f.name

/-- Answers for each kind of conflict. Every function takes the name of the owner, then what the
left and the right side say. A scalar is in conflict as soon as one side configures it. -/
structure ConflictPolicy (m : Type → Type) where
  field : Name → FieldNode → FieldNode → m FieldNode
  directive : Name → Directive → Directive → m Directive
  enumValue : Name → EnumValue → EnumValue → m EnumValue
  unionMember : Name → Name → Name → m Name
  scalar : Name → Option ScalarConfig → Option ScalarConfig → m (Option ScalarConfig)

namespace ConflictPolicy

variable {m : Type → Type} [Monad m]

/-- The policy that keeps what the right side says, and of scalars what the left side says where the
right side says nothing. -/
def keepRight : ConflictPolicy m where
  field _ _ right := pure right
  directive _ _ right := pure right
  enumValue _ _ right := pure right
  unionMember _ _ right := pure right
  scalar _ left right := pure (right <|> left)

/-- Asks about two fields of an object or interface. An answer that is an input field counts as
none, and then the right field stands. -/
def outputField (p : ConflictPolicy m) (owner : Name) (left right : Field) : m Field := do
  match ← p.field owner (.output left) (.output right) with
  | .output f => return f
  | .input _ => return right

/-- Asks about two fields of an input object. An answer that is an output field counts as none, and
then the right field stands. -/
def inputField (p : ConflictPolicy m) (owner : Name) (left right : InputField) : m InputField := do
  match ← p.field owner (.input left) (.input right) with
  | .input f => return f
  | .output _ => return right

end ConflictPolicy
end SchemaStitch
