import SchemaStitch.Resolver.Basic

/-!
Editing compositions. Entries are put first, after the anchor, or last; the anchor stays what it
is even when it is removed from the entries.
-/
namespace SchemaStitch

namespace Composer

/-- A composition around a resolver. The composition behind a resolver is copied and then belongs to
whoever copied it, even if a merge installed it. -/
def around (r : Resolver) : Composer :=
  match r.composer? with
  | some c => { c with mergeLayer := false }
  | none => ⟨[r], some r, none, false⟩

/-- Where the anchor stands among the entries. -/
def anchorIndex (c : Composer) : Option Nat :=
  match c.anchor with
  | some o => c.order.findIdx? (·.same o)
  | none => none

/-- Puts an entry first. -/
def prepend (r : Resolver) (c : Composer) : Composer := { c with order := r :: c.order }

/-- Puts an entry right after the anchor, or last if the anchor is not an entry. -/
def append (r : Resolver) (c : Composer) : Composer :=
  let index := match anchorIndex c with
    | some i => i + 1
    | none => c.order.length
  { c with order := c.order.take index ++ r :: c.order.drop index }

/-- Puts an entry last. -/
def push (r : Resolver) (c : Composer) : Composer := { c with order := c.order ++ [r] }

/-- Removes the first entry that is a copy of a resolver and answers it. -/
def remove (r : Resolver) (c : Composer) : Composer × Option Resolver :=
  match c.order.find? (·.same r) with
  | some entry => ({ c with order := c.order.eraseP (·.same r) }, some entry)
  | none => (c, none)

/-- Sets or takes away the patcher. -/
def setPatcher (p : Option Patcher) (c : Composer) : Composer := { c with patcher := p }

/-- A composition around a resolver with entries before and after it, in the order given; a patcher
takes the place of the one the resolver brings. -/
def wrap (anchor : Resolver) (prepends appends : List Resolver) (p : Option Patcher) : Composer :=
  let c := prepends.foldr prepend (around anchor)
  let c := appends.foldr append c
  if p.isSome then setPatcher p c else c

/-- The shape that decides where a schema is put for a resolver: that of the anchor of a
composition, else the resolver's own. -/
def injectionShape (r : Resolver) : Shape :=
  match r.composer? with
  | some ⟨_, some anchor, _, _⟩ => anchor.shape
  | _ => r.shape

/-- Writes a schema, and a root value if there is one, where a shape looks for it, and hands on what
has been accumulated. -/
def putSchema (shape : Shape) (schema : Schema) (root : Option Json) : Handler := fun call => do
  match shape with
  | .info =>
    call.info.setSchema schema
    if let some v := root then call.info.setRoot v
  | .context =>
    call.context.setSchema schema
    if let some v := root then call.context.setRoot v
  return .ok (call.accumulated.getD .null)

/-- The composition that a merge installs around a resolver, so that the resolver sees a schema. The
resolver is kept whole, with its own entries and patcher. -/
def injectSchema {m : Type → Type} [Monad m] [Fresh m] (anchor : Resolver) (schema : Schema)
    (root : Option Json) (p : Option Patcher) : m Composer := do
  let shape := injectionShape anchor
  let injector ← Resolver.ofHandler (putSchema shape schema root)
  let injector := (injector.withShape shape).withLabel "SchemaInjector"
  return prepend injector ⟨[anchor], some anchor, p, true⟩

end Composer
end SchemaStitch
