import SchemaStitch.Bundle.History
import SchemaStitch.Pare

/-!
Paring bundles: what another source defines is taken from the text, with the resolvers of the fields
that go, and from every snapshot of the history too, so that no later merge brings them back.
-/
namespace SchemaStitch

open Sdl

/-- Whether a document defines a scalar. -/
def Sdl.Document.definesScalar (d : Document) (name : Name) : Bool :=
  d.any fun
    | .type ⟨_, n, _, .scalar⟩ => n == name
    | _ => false

/-- Takes from a bundle what another source defines. The text may become empty. -/
def Bundle.pare (b : Bundle) (other : Source) : Except StitchError Bundle := do
  let other ← Bundle.ofSource other
  let left ← b.document
  let right ← other.document
  let (document, map) := left.pare right (b.currentResolvers.getD .nil)
  let history := b.history.map fun s => { s with resolvers := (left.pare right s.resolvers).2 }
  return {
    sdl := Text.trim document.print
    resolvers := if map.isEmpty then none else some map
    scalars := b.scalars.filter fun (name, _) => document.definesScalar name
    history
    cache := none }

end SchemaStitch
