import SchemaStitch.Json.Printer
import SchemaStitch.Resolver.Call

/-!
Resolvers: plain functions, resolvers with injectors that adjust their calls, and compositions that
run several resolvers as one. Every resolver has an identity; copies of it share the identity and
may differ in shape and label.
-/
namespace SchemaStitch

/-- A monad that hands out identities. -/
class Fresh (m : Type → Type) where
  fresh : m Nat

/-- Steps that draw identities from a counter. -/
abbrev Supply := StateM Nat

instance : Fresh Supply := ⟨modifyGet fun n => (n, n + 1)⟩

instance {σ : Type} {m : Type → Type} [Monad m] [Fresh m] : Fresh (StateT σ m) :=
  ⟨StateT.lift Fresh.fresh⟩

/-- What a plain resolver does; a failure is told by its text. -/
abbrev Handler := Call → Act (Except String Json)

/-- Adjusts the call of a resolver before it runs. -/
abbrev Injector := Call → Act Call

/-- Has the last word on the results of a composition; a failure is told by its text. -/
abbrev Patcher := Json → Act (Except String Json)

/-- Identity, shape and label of a resolver. -/
structure Tag where
  id : Nat
  shape : Shape
  label : Option String
  deriving DecidableEq, Inhabited

/-- A composition of resolvers: the entries in the order in which they run; its anchor, the resolver
it was built around, which need not be an entry any more; and whether a merge installed it. -/
structure Composition (ρ : Type) where
  order : List ρ
  anchor : Option ρ
  patcher : Option Patcher
  mergeLayer : Bool

/-- A resolver. -/
inductive Resolver where
  | function (tag : Tag) (handler : Handler)
  | injected (tag : Tag) (injectors : List Injector) (inner : Resolver)
  | composed (tag : Tag) (composer : Composition Resolver)

/-- A composition of resolvers. -/
abbrev Composer := Composition Resolver

instance : Inhabited Resolver := ⟨.function default fun _ => return .ok .null⟩

/-- Why an invocation failed: a function's own text, the entry of a composition that failed with the
call it was given, or the patcher of a composition with the call and the results it was given. The
patcher itself is implicit, for no text tells it. -/
inductive Failure where
  | message (text : String)
  | entry (source : Failure) (composer : Composer) (index : Nat) (call : Call)
  | patcher (source : Failure) {patcher : Patcher} (call : Call) (results : Json)

/-- The text of a failure. -/
def Failure.text : Failure → String
  | .message text => text
  | .entry source composer index _ =>
    "resolver #" ++ toString index ++ " of " ++ toString composer.order.length ++ " failed: " ++
      source.text
  | .patcher source _ _ => "results patcher failed: " ++ source.text

namespace Resolver

variable {m : Type → Type} [Monad m] [Fresh m]

/-- Identity, shape and label. -/
def tag : Resolver → Tag
  | .function t _ | .injected t _ _ | .composed t _ => t

/-- Changes shape or label. -/
def mapTag (f : Tag → Tag) : Resolver → Resolver
  | .function t h => .function (f t) h
  | .injected t is r => .injected (f t) is r
  | .composed t c => .composed (f t) c

/-- The shape that calls are made in. -/
def shape (r : Resolver) : Shape := r.tag.shape

/-- The label, if there is one. -/
def label (r : Resolver) : Option String := r.tag.label

/-- Whether two resolvers are copies of one. -/
def same (a b : Resolver) : Bool := a.tag.id == b.tag.id

/-- A copy with another shape. -/
def withShape (shape : Shape) (r : Resolver) : Resolver := r.mapTag fun t => { t with shape }

/-- A copy with another label. -/
def withLabel (label : String) (r : Resolver) : Resolver :=
  r.mapTag fun t => { t with label := some label }

/-- The composition behind a resolver, if it is one. -/
def composer? : Resolver → Option Composer
  | .composed _ c => some c
  | _ => none

/-- The resolver that this one was built around: injectors are taken off and compositions give their
anchor, again and again. -/
def base : Resolver → Resolver
  | .function t h => .function t h
  | .injected _ _ inner => inner.base
  | .composed _ ⟨_, some anchor, _, _⟩ => anchor.base
  | .composed t ⟨order, none, patcher, layer⟩ => .composed t ⟨order, none, patcher, layer⟩

/-- The resolver without what merges have put around it: injectors and compositions that a merge
installed are taken off, again and again. Compositions of the owner stay. -/
def unmerged : Resolver → Resolver
  | .function t h => .function t h
  | .injected _ _ inner => inner.unmerged
  | .composed _ ⟨_, some anchor, _, true⟩ => anchor.unmerged
  | .composed t ⟨order, none, patcher, true⟩ => .composed t ⟨order, none, patcher, true⟩
  | .composed t ⟨order, anchor, patcher, false⟩ => .composed t ⟨order, anchor, patcher, false⟩

/-- A new resolver from a function. -/
def ofHandler (h : Handler) : m Resolver := return .function ⟨← Fresh.fresh, .info, none⟩ h

/-- A new resolver that answers a value, labelled with the value's text. -/
def constant (v : Json) : m Resolver := do
  let label := match v with
    | .string s => s
    | other => other.render
  return (← ofHandler fun _ => return .ok v).withLabel label

/-- Answers the field of the parent value that the call is for, or null. -/
def readParent : Handler := fun call =>
  return .ok ((call.parent.field? call.info.fieldName).getD .null)

/-- A new resolver that answers the field of the parent value that the call is for. -/
def fieldOfParent : m Resolver := return (← ofHandler readParent).withLabel "defaultFieldResolver"

/-- A new resolver around this one whose calls are adjusted first; without injectors, this one. -/
def withInjectors (injectors : List Injector) (r : Resolver) : m Resolver :=
  if injectors.isEmpty then return r
  else return .injected { r.tag with id := ← Fresh.fresh } injectors r

/-- A new resolver from a composition, in the shape of its anchor. -/
def ofComposer (c : Composer) : m Resolver :=
  return .composed ⟨← Fresh.fresh, (c.anchor.map shape).getD .info, none⟩ c

end Resolver
end SchemaStitch
