import SchemaStitch.Bundle.History
import SchemaStitch.Merge.Document

/-!
Merging bundles: their documents and scalar configurations by a conflict policy, their resolvers
from the whole history of both sides, later sides winning. Then gaps are filled, injectors are put
around the resolvers and the resolvers are made to see the merged schema, each if the options say
so.
-/
namespace SchemaStitch

open Sdl

/-- How bundles are merged. -/
structure MergeOptions (m : Type → Type) where
  conflicts : ConflictPolicy m
  injectors : List Injector
  injectSchema : Bool
  createMissing : Bool

/-- The text of merge options in diagnostics. -/
def MergeOptions.inspect {m : Type → Type} (o : MergeOptions m) : String :=
  Text.record "MergeOptions"
    [("conflict_resolvers", "ConflictResolvers"),
      ("resolver_injectors", Text.listed (o.injectors.map fun _ => "ResolverInjector(<fn>)")),
      ("inject_merged_schema", Text.truth o.injectSchema),
      ("create_missing_resolvers", Text.truth o.createMissing)]

namespace ResolverMap

/-- Gives every field of an object that has no resolver the one that reads the parent value. A field
of a root type has one already if anything stands flat under its name. -/
def fillMissing (s : Schema) (map : ResolverMap) : Supply ResolverMap :=
  let places := s.fieldsByType.filter fun (type, _) => type.kind == .object
  places.foldlM (fun map (type, field) => fill map type.name field.name) map
where
  /-- Fills the gap at one field, if there is one. -/
  fill (map : ResolverMap) (type field : Name) : Supply ResolverMap := do
    let bound := (map.resolver? type field).isSome || (s.isRoot type && (map.get? field).isSome)
    if bound then return map
    else return (map.setAt field (entry (← Resolver.fieldOfParent)) [type]).1

/-- Puts injectors around every resolver. -/
def injectCalls (injectors : List Injector) (map : ResolverMap) :
    Supply (Except Stumble ResolverMap) :=
  map.walk (fun v => return some (← v.resolver.withInjectors injectors)) true []

/-- Makes every resolver see a schema. -/
def injectSchema (s : Schema) (map : ResolverMap) : Supply (Except Stumble ResolverMap) :=
  map.walk
    (fun v => return some (← Resolver.ofComposer (← Composer.injectSchema v.resolver s none none)))
    true []

end ResolverMap

namespace Bundle

variable {m : Type → Type} [Monad m]

/-- Merges texts and scalar configurations. Resolvers are not carried over. -/
def mergeSdl (p : ConflictPolicy m) (b : Bundle) (other : Source) :
    m (Except StitchError Bundle) := do
  let sides : Except StitchError (Bundle × Document × Document) := do
    let other ← ofSource other
    return (other, ← b.document, ← other.document)
  match sides with
  | .error e => return .error e
  | .ok (other, left, right) =>
    let merged ← left.merge p right
    let scalars ← mergeScalars p b.scalars other.scalars merged
    return (ofSource (.document merged)).map fun b => { b with scalars }

/-- The resolvers of a merge made from a history: filled, injected and made to see the merged
schema. -/
def stitch (o : MergeOptions m) (merged : Bundle) (history : List Snapshot) :
    ExceptT StitchError Supply ResolverMap := do
  let mut map := Snapshot.foldAll history
  if o.createMissing then
    map ← ExceptT.mk (Except.ok <$> ResolverMap.fillMissing (← fromExcept merged.typeSchema) map)
  if !o.injectors.isEmpty then
    map ← fromWalk (map.injectCalls o.injectors)
  if o.injectSchema && !map.isEmpty then
    map ← fromWalk (map.injectSchema (← fromExcept merged.typeSchema))
  return map
where
  /-- A failure or an answer as a step. -/
  fromExcept {α : Type} (e : Except StitchError α) : ExceptT StitchError Supply α :=
    ExceptT.mk (return e)
  /-- A walk as a step. -/
  fromWalk (walked : Supply (Except Stumble ResolverMap)) :
      ExceptT StitchError Supply ResolverMap :=
    ExceptT.mk do return (← walked).mapError .stumble

/-- The history of a merge: that of the left side, that of the right side, then both sides. -/
def mergedHistory (left right : Bundle) : Supply (List Snapshot) := do
  return left.history ++ right.history ++ [← Snapshot.capture left, ← Snapshot.capture right]

/-- Merges two bundles, drawing the identities of new resolvers from a counter. -/
def merge (o : MergeOptions m) (left right : Bundle) :
    StateT Nat m (Except StitchError Bundle) := do
  match ← StateT.lift (mergeSdl o.conflicts left (.bundle right)) with
  | .error e => return .error e
  | .ok merged =>
    let step : Supply (Except StitchError Bundle) := do
      let history ← mergedHistory left right
      let map ← (stitch o merged history).run
      return map.map fun map => { merged with history }.setResolvers map
    modifyGet fun next => step.run next

end Bundle
end SchemaStitch
