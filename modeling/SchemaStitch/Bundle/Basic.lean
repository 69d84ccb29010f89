import SchemaStitch.Text.Blank
import SchemaStitch.Sdl.Grammar
import SchemaStitch.Schema.Validity
import SchemaStitch.Schema.Document
import SchemaStitch.Executable
import SchemaStitch.Error

/-!
Bundles: the text of a schema together with its resolvers, its scalar configurations, the history of
the merges that made it and the executable schema built from them, which is kept until one of them
changes.
-/
namespace SchemaStitch

open Sdl

/-- What one side brought into a merge: its text, its executable schema if there was one at the
time, and its resolvers without what earlier merges had put around them. -/
structure Snapshot where
  executable : Option Executable
  sdl : Option String
  resolvers : ResolverMap

/-- A schema text and what goes with it. -/
structure Bundle where
  sdl : String
  resolvers : Option ResolverMap
  scalars : ScalarConfigs
  history : List Snapshot
  cache : Option Executable

/-- What a bundle can be made from. -/
inductive Source where
  | sdl (text : String)
  | document (d : Document)
  | schema (s : Schema)
  | bundle (b : Bundle)

namespace Source

/-- The text of a source without blanks around it. There must be some text. -/
def normalize (source : Source) : Except StitchError String :=
  let text := match source with
    | .sdl text => Text.trim text
    | .document d => Text.trim d.print
    | .schema s => Text.trim s.toDocument.print
    | .bundle b => b.sdl
  if text.isEmpty then .error .emptySource else .ok text

/-- The schema object of a source. -/
def schema? : Source → Option Schema
  | .schema s => some s
  | _ => none

end Source

namespace Bundle

/-- The bundle of a source. A bundle stays what it is; a valid schema object is kept. -/
def ofSource : Source → Except StitchError Bundle
  | .bundle b => .ok b
  | source => do
    let sdl ← source.normalize
    let cache := (source.schema?.bind Schema.validate?).map Executable.ofSchema
    return ⟨sdl, none, [], [], cache⟩

/-- Forgets the executable schema. -/
def clear (b : Bundle) : Bundle := { b with cache := none }

/-- Replaces the resolvers; an empty map takes them away. -/
def setResolvers (map : ResolverMap) (b : Bundle) : Bundle :=
  { b with resolvers := if map.isEmpty then none else some map, cache := none }

/-- Attaches a configuration to a scalar. -/
def withScalar (name : Name) (c : ScalarConfig) (b : Bundle) : Bundle :=
  { b with scalars := Assoc.insert b.scalars name c, cache := none }

/-- The document that the text spells; an empty text spells the empty document. -/
def document (b : Bundle) : Except StitchError Document :=
  if b.sdl.isEmpty then .ok []
  else match Document.parse? b.sdl with
    | some d => .ok d
    | none => .error .invalidSdl

/-- The valid schema that the text describes; extensions of nothing are taken for definitions. -/
def typeSchema (b : Bundle) : Except StitchError Schema :=
  match (Document.parse? b.sdl).bind fun d => (Schema.build? .adopt d).bind Schema.validate? with
  | some s => .ok s
  | none => .error .invalidSdl

/-- The executable schema that is kept and still fits: with resolvers it must have been bound. -/
def usable? (b : Bundle) : Option Executable :=
  b.cache.filter fun e => b.resolvers.isNone || e.isExecutable

/-- The executable schema, built from the text, the scalar configurations and the resolvers. -/
def build (b : Bundle) : Except StitchError Executable := do
  let e := Executable.ofSchema (← b.typeSchema)
  let e := b.scalars.foldl (fun e (name, c) => (e.setScalar name c).1) e
  return match b.resolvers with
    | some map => e.bindMap map
    | none => e

/-- The executable schema, from what is kept if it fits; what is built is kept. -/
def schema (b : Bundle) : Except StitchError (Executable × Bundle) :=
  match b.usable? with
  | some e => .ok (e, b)
  | none => do
    let e ← b.build
    return (e, { b with cache := some e })

/-- A bundle with explicit resolvers. Those of a schema object are bound at once. -/
def ofParts (source : Source) (map : ResolverMap) : Except StitchError Bundle := do
  let b ← ofSource source
  if source.schema?.isSome && !map.isEmpty then
    let e := (Executable.ofSchema (← b.typeSchema)).bindMap map
    return { b with resolvers := some map, cache := some e }
  else return b.setResolvers map

/-- The resolvers: those that are stored, else those bound to the executable schema that is kept. -/
def currentResolvers (b : Bundle) : Option ResolverMap :=
  match b.resolvers, b.cache with
  | some map, _ => some map
  | none, some e => if e.isExecutable && e.resolverCount > 0 then some e.toMap else none
  | none, none => none

/-- Whether the text spells a document. -/
def hasValidSdl (b : Bundle) : Bool := !b.sdl.isEmpty && b.document.toBool

/-- Whether the text describes a valid schema. -/
def hasValidSchema (b : Bundle) : Bool := b.typeSchema.toBool

/-- The text of a bundle in diagnostics. -/
def inspect (b : Bundle) : String :=
  Text.record "Schemata"
    [("sdl", Text.quoted b.sdl), ("resolvers", Text.optional (b.resolvers.map (·.inspect))),
      ("scalars", Executable.inspectScalars b.scalars),
      ("prev_resolver_maps", toString b.history.length), ("cached", Text.truth b.cache.isSome)]

end Bundle
end SchemaStitch
