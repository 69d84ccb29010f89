import SchemaStitch.KeyTree
import SchemaStitch.Resolver.Inspect

/-!
Resolver maps: resolvers by type and field name. The fields of root operations may also stand flat,
by field name alone. A leaf may be a raw value in the place of a resolver.
-/
namespace SchemaStitch

/-- What stands where a resolver is expected. -/
inductive Leaf where
  | resolver (r : Resolver)
  | value (v : Json)

instance : Inhabited Leaf := ⟨.value .null⟩

/-- Resolvers by the names on the way to them. -/
abbrev ResolverMap := KeyTree Leaf

/-- A path that leads nowhere, with the first segment at which it fails. -/
structure InvalidPath where
  path : List String
  segment : String
  deriving DecidableEq

/-- The text of a path that leads nowhere. -/
def InvalidPath.text (e : InvalidPath) : String :=
  "invalid path [" ++ ".".intercalate e.path ++ "]: no branch named \x60" ++ e.segment ++ "\x60"

/-- The resolver of a leaf, if it holds one. -/
def Leaf.resolver? : Leaf → Option Resolver
  | .resolver r => some r
  | .value _ => none

/-- Whether a leaf holds a resolver. -/
def Leaf.isResolver (l : Leaf) : Bool := l.resolver?.isSome

namespace ResolverMap

/-- The entry with a resolver. -/
def entry (r : Resolver) : KeyTree.Entry Leaf := .leaf (.resolver r)

/-- The resolver that an entry holds. -/
def resolverOf? : KeyTree.Entry Leaf → Option Resolver
  | .leaf l => l.resolver?
  | .branch _ => none

/-- The entry at a path. -/
def at? (path : List String) (t : ResolverMap) : Except InvalidPath (KeyTree.Entry Leaf) :=
  match t.find path with
  | .ok e => .ok e
  | .error segment => .error ⟨path, segment⟩

/-- The branch that holds resolvers by field name. -/
def ofFields (fields : List (String × Resolver)) : ResolverMap :=
  KeyTree.ofEntries (fields.map fun (f, r) => (f, entry r))

/-- Adds resolvers to the branch of a type; an entry that is no branch gives way. -/
def withType (type : String) (fields : List (String × Resolver)) (t : ResolverMap) : ResolverMap :=
  let branch := ofFields fields
  match t.get? type with
  | some (.branch mine) => t.insert type (.branch (mine.overlay branch))
  | _ => t.insert type (.branch branch)

/-- The resolver of a field of a type. -/
def resolver? (t : ResolverMap) (type field : String) : Option Resolver :=
  (t.find? [type, field]).bind resolverOf?

/-- The resolver that stands flat under a field name. -/
def flat? (t : ResolverMap) (field : String) : Option Resolver := (t.get? field).bind resolverOf?

/-- How many resolvers there are. -/
def resolverCount (t : ResolverMap) : Nat := t.countLeaves Leaf.isResolver

/-- The text of a leaf in diagnostics. -/
def inspectLeaf : Leaf → String
  | .resolver r => "Resolver(" ++ r.inspect ++ ")"
  | .value v => "Value(" ++ v.inspect ++ ")"

/-- The texts of the entries of a map in diagnostics. -/
def inspectRows : ResolverMap → List (String × String)
  | .nil => []
  | .leaf k l rest => (k, inspectLeaf l) :: inspectRows rest
  | .branch k sub rest => (k, "Map(" ++ Text.table (inspectRows sub) ++ ")") :: inspectRows rest

/-- The text of a map in diagnostics. -/
def inspect (t : ResolverMap) : String := Text.table (inspectRows t)

end ResolverMap
end SchemaStitch
