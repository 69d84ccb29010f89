import SchemaStitch.Bundle.Merge
import SchemaStitch.Proofs.ResolverMap.Walk

/-! What each operation on bundles has done when it answers. -/
namespace SchemaStitch
open Sdl

namespace Source

/-- The text of a source as it was handed in or is printed. -/
def text : Source → String
  | .sdl text => text
  | .document d => d.print
  | .schema s => s.toDocument.print
  | .bundle b => b.sdl

theorem normalize_eq {source : Source}
    (trimmed : ∀ b, source = .bundle b → Text.trim b.sdl = b.sdl) :
    source.normalize = if (Text.trim source.text).isEmpty then .error .emptySource
      else .ok (Text.trim source.text) := by
  cases source with
  | bundle b =>
    rw [text, trimmed b rfl]
    rfl
  | _ => rfl

end Source

namespace Bundle

/-- A bundle made from a source that is no bundle. -/
structure MadeAfresh (source : Source) (b : Bundle) : Prop where
  text : b.sdl = Text.trim source.text
  full : b.sdl ≠ ""
  resolvers : b.resolvers = none
  scalars : b.scalars = []
  history : b.history = []
  cache : b.cache = (source.schema?.bind Schema.validate?).map Executable.ofSchema

theorem ofSource_cases {source : Source} {b : Bundle} (made : ofSource source = .ok b) :
    source = .bundle b ∨ MadeAfresh source b := by
  have fresh (other : ∀ o, source ≠ .bundle o)
      (made : (do return ⟨← source.normalize, none, [], [],
        (source.schema?.bind Schema.validate?).map Executable.ofSchema⟩) = Except.ok b) :
      MadeAfresh source b := by
    rw [Source.normalize_eq fun o same => absurd same (other o)] at made
    split at made
    · cases made
    · rename_i full
      cases made
      exact ⟨rfl, by simpa using full, rfl, rfl, rfl, rfl⟩
  cases source with
  | bundle own =>
    cases made
    exact Or.inl rfl
  | sdl text => exact Or.inr (fresh nofun made)
  | document d => exact Or.inr (fresh nofun made)
  | schema s => exact Or.inr (fresh nofun made)

/-- The resolvers that come with a schema object are bound at once, if there are any; others are
set. -/
theorem ofParts_cases {source : Source} {map : ResolverMap} {b : Bundle}
    (made : ofParts source map = .ok b) :
    ∃ first, ofSource source = .ok first ∧
      ((∃ object s, source = .schema object ∧ map.isEmpty = false ∧ first.typeSchema = .ok s ∧
          b = { first with
            resolvers := some map, cache := some ((Executable.ofSchema s).bindMap map) }) ∨
        b = first.setResolvers map) := by
  cases begun : ofSource source with
  | error cause => simp [ofParts, begun, bind, Except.bind] at made
  | ok first =>
    refine ⟨first, rfl, ?_⟩
    simp only [ofParts, begun, bind, Except.bind] at made
    split at made
    · rename_i eager
      simp only [Bool.and_eq_true, Bool.not_eq_true'] at eager
      cases source with
      | schema object =>
        cases typed : first.typeSchema with
        | error cause => simp [typed] at made
        | ok s =>
          simp only [typed, pure, Except.pure, Except.ok.injEq] at made
          exact Or.inl ⟨object, s, rfl, eager.2, rfl, made.symm⟩
      | _ => cases eager.1
    · cases made
      exact Or.inr rfl

/-- The executable schema is the one that is kept, or is built and kept. -/
theorem schema_cases {b b' : Bundle} {e : Executable} (built : b.schema = .ok (e, b')) :
    b.cache = some e ∧ b' = b ∨ b.build = .ok e ∧ b' = { b with cache := some e } := by
  rw [schema] at built
  split at built
  · rename_i kept usable
    cases built
    exact Or.inl ⟨(Option.filter_eq_some_iff.mp usable).1, rfl⟩
  · cases made : b.build with
    | error cause => simp [made, bind, Except.bind] at built
    | ok own =>
      simp only [made, bind, Except.bind, pure, Except.pure, Except.ok.injEq,
        Prod.mk.injEq] at built
      obtain ⟨rfl, rfl⟩ := built
      exact Or.inr ⟨rfl, rfl⟩

/-- A merge of texts merges the documents that both sides spell, and makes a bundle of the result
with the scalar configurations of both. -/
theorem mergeSdl_steps {σ : Type} {p : ConflictPolicy (StateM σ)} {left merged : Bundle}
    {right : Source} {s : σ} (done : ((mergeSdl p left right).run s).1 = .ok merged) :
    ∃ other d e first, ofSource right = .ok other ∧ left.document = .ok d ∧
      other.document = .ok e ∧ ofSource (.document ((d.merge p e).run s).1) = .ok first ∧
      merged = { first with
        scalars := ((mergeScalars p left.scalars other.scalars ((d.merge p e).run s).1).run
          ((d.merge p e).run s).2).1 } := by
  cases begun : ofSource right with
  | error cause => simp [mergeSdl, begun, bind, Except.bind] at done
  | ok other =>
    cases own : left.document with
    | error cause => simp [mergeSdl, begun, own, bind, Except.bind] at done
    | ok d =>
      cases others : other.document with
      | error cause => simp [mergeSdl, begun, own, others, bind, Except.bind] at done
      | ok e =>
        have sides : (do
            let other ← ofSource right
            return (other, ← left.document, ← other.document)) = Except.ok (other, d, e) := by
          simp only [begun, own, others, bind, Except.bind, pure, Except.pure]
        rw [mergeSdl, sides] at done
        simp only [run_bind, run_pure] at done
        cases printed : ofSource (.document ((d.merge p e).run s).1) with
        | error cause =>
          rw [printed] at done
          cases done
        | ok first =>
          rw [printed] at done
          cases done
          exact ⟨other, d, e, first, rfl, rfl, others, printed, rfl⟩

end Bundle
end SchemaStitch
