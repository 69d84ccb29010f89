import SchemaStitch.Executable
import SchemaStitch.Proofs.Pare.Takes

/-! Which types are roots, to paring and to binding. Paring reads the roots off the consolidated
document and binding asks the schema that is built from the document. Both find the same object types
and so the same flat resolvers, unless all that is said of the schema stands in extensions that list
no root operation: the schema keeps its conventional roots then, and the consolidated document has a
schema definition that lists none. -/
namespace SchemaStitch
open Sdl Merge

namespace Pare

/-- Where no entry stands in the branch of the type, the flat resolver is taken for a root. -/
theorem flat?_takeResolver {map : ResolverMap} (keyed : map.Keyed) (isRoot : Bool)
    {type field : Name} (bare : map.find? [type, field] = none) :
    (takeResolver isRoot type map field).flat? field =
      if isRoot then none else map.flat? field := by
  have kept := flat?_removeAt keyed type field field
  have answered := KeyTree.removeAt_answer [type, field] map
  have rest_keyed := keyed.removeAt [type, field]
  rw [bare] at answered
  rw [takeResolver]
  generalize map.removeAt [type, field] = taken at kept answered rest_keyed ⊢
  obtain ⟨rest, answer⟩ := taken
  dsimp only at answered kept rest_keyed
  subst answer
  dsimp only
  cases isRoot with
  | false => exact kept
  | true =>
    simp only [Bool.true_and, if_true]
    split
    · rw [ResolverMap.flat?, rest_keyed.get?_erase_self]
      rfl
    · rename_i unflat
      simpa using unflat

/-- An object type of a document is a root to paring where it is one of the schema that is built from
the document, unless the document leaves the roots unsaid and the type has a conventional name. So
paring takes a flat resolver for a field of the type where binding binds it. -/
theorem roots_agree {d : Document} {s : Schema} {type : Name}
    (built : Schema.build? .adopt d = some s)
    (object : d.Says Definition.Declares type .object)
    (said : d.RootsUnsaid → ∀ kind : OperationKind, type ≠ kind.defaultRoot) :
    (type ∈ rootNames d.consolidated ↔ s.isRoot type = true) ∧
      ∀ (map : ResolverMap) (field : Name), map.Keyed → map.find? [type, field] = none →
        map.flat? field ≠ none →
        ((takeResolver ((rootNames d.consolidated).contains type) type map field).flat? field = none ↔
          Executable.choose? s map type field = map.flat? field) := by
  have adopts := Schema.adopts_of_build? built
  have same : type ∈ rootNames d.consolidated ↔ s.isRoot type = true := by
    rw [adopts.mem_rootNames_consolidated, adopts.isRoot_object_iff object]
    constructor
    · exact Or.imp_right fun silent => ⟨Or.inl silent.1, silent.2⟩
    · refine Or.imp_right fun ⟨unsaid, kind, conventional⟩ => ⟨?_, kind, conventional⟩
      exact unsaid.resolve_right fun unsaid => said unsaid kind conventional
  refine ⟨same, fun map field keyed bare flat => ?_⟩
  have typed : map.resolver? type field = none := by rw [ResolverMap.resolver?, bare]; rfl
  have asked : (rootNames d.consolidated).contains type = s.isRoot type :=
    Bool.eq_iff_iff.mpr (List.contains_iff_mem.trans same)
  rw [flat?_takeResolver keyed _ bare, Executable.choose?, typed, asked]
  cases s.isRoot type <;> simp [flat, Ne.symm flat]

theorem roots_agree_listed :
    ∃ d s map, Schema.build? .adopt d = some s ∧ d.Says Definition.Declares "Root" .object ∧
      d.Says Definition.Declares "Query" .object ∧ ¬ d.RootsUnsaid ∧
      (s.isRoot "Root" = true ∧ "Root" ∈ rootNames d.consolidated) ∧
      (s.isRoot "Query" = false ∧ "Query" ∉ rootNames d.consolidated) ∧
      map.flat? "a" ≠ none ∧ Executable.choose? s map "Root" "a" = map.flat? "a" ∧
      (takeResolver ((rootNames d.consolidated).contains "Root") "Root" map "a").flat? "a" = none := by
  let d := documentOf "extend schema { query: Root } type Root { a: Int } type Query { b: Int }"
  let map : ResolverMap := .leaf "a" (.resolver (.function default Resolver.readParent)) .nil
  have run : ((Schema.build? .adopt d).any fun s => s.isRoot "Root" && !s.isRoot "Query") = true := by
    decide +kernel
  obtain ⟨s, built, passes⟩ := (Option.any_eq_true _ _).mp run
  simp only [Bool.and_eq_true, Bool.not_eq_true'] at passes
  have root : d.Says Definition.Declares "Root" .object := by decide +kernel
  have query : d.Says Definition.Declares "Query" .object := by decide +kernel
  have said : ¬ d.RootsUnsaid := by decide +kernel
  obtain ⟨root_agrees, taken_iff⟩ := roots_agree built root fun unsaid => absurd unsaid said
  obtain ⟨query_agrees, _⟩ := roots_agree built query fun unsaid => absurd unsaid said
  have flat : map.flat? "a" ≠ none := Option.some_ne_none _
  have bound : Executable.choose? s map "Root" "a" = map.flat? "a" := by
    rw [Executable.choose?, passes.1]
    rfl
  exact ⟨d, s, map, built, root, query, said, ⟨passes.1, root_agrees.mpr passes.1⟩,
    ⟨passes.2, fun listed => by simp [query_agrees.mp listed] at passes⟩, flat, bound,
    (taken_iff map "a" ⟨by decide, trivial⟩ rfl flat).mpr bound⟩

/-- Where extensions that only apply directives are all that is said of the schema, binding has the
conventional roots and paring has none. -/
theorem roots_can_disagree :
    ¬ ∀ (d : Document) (s : Schema) (type : Name), Schema.build? .adopt d = some s →
      d.Says Definition.Declares type .object →
      (type ∈ rootNames d.consolidated ↔ s.isRoot type = true) := by
  intro claim
  let d := documentOf "extend schema @a type Query { b: Int } directive @a on SCHEMA"
  have run : ((Schema.build? .adopt d).any fun s => s.isRoot "Query") = true := by decide +kernel
  obtain ⟨s, built, root⟩ := (Option.any_eq_true _ _).mp run
  have query : d.Says Definition.Declares "Query" .object := by decide +kernel
  have unlisted : "Query" ∉ rootNames d.consolidated := by decide +kernel
  exact unlisted ((claim d s "Query" built query).mpr root)

end Pare
end SchemaStitch
