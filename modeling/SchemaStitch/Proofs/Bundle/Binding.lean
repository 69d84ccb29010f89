import SchemaStitch.Bundle.Basic
import SchemaStitch.Proofs.KeyTree.Removal

/-! What is bound to the fields of an executable schema: at each field of the schema the resolver
that the map of the bundle has for it, and nothing elsewhere. -/
namespace SchemaStitch
open Sdl

theorem Leaf.eq_of_resolver? {l : Option Leaf} {r : Resolver}
    (found : l.bind Leaf.resolver? = some r) : l = some (.resolver r) := by
  obtain ⟨l, rfl, found⟩ := Option.bind_eq_some_iff.mp found
  cases l with
  | resolver own => simpa [Leaf.resolver?] using found
  | value v => simp [Leaf.resolver?] at found

namespace ResolverMap

theorem resolver?_eq_leaf? (map : ResolverMap) (type field : Name) :
    map.resolver? type field = (map.leaf? [type, field]).bind Leaf.resolver? := by
  rw [resolver?, KeyTree.find?_eq_bind, KeyTree.leaf?_eq_bind]
  cases map.get? type with
  | none => rfl
  | some e =>
    cases e with
    | leaf l => rfl
    | branch sub =>
      simp only [Option.bind_some, KeyTree.Entry.find?, KeyTree.Entry.leaf?]
      rw [if_neg (by simp), KeyTree.find?_eq_bind, KeyTree.leaf?_eq_bind]
      cases sub.get? field with
      | none => rfl
      | some e => cases e <;> rfl

theorem leaf?_of_resolver? {map : ResolverMap} {type field : Name} {r : Resolver}
    (found : map.resolver? type field = some r) : map.leaf? [type, field] = some (.resolver r) := by
  rw [resolver?_eq_leaf?] at found
  exact Leaf.eq_of_resolver? found

theorem flat?_eq_leaf? (map : ResolverMap) (field : Name) :
    map.flat? field = (map.leaf? [field]).bind Leaf.resolver? := by
  rw [flat?, KeyTree.leaf?_eq_bind]
  cases map.get? field with
  | none => rfl
  | some e => cases e <;> rfl

end ResolverMap

/-- Whether an object or interface of a schema has a field. -/
def Schema.HasField (s : Schema) (type field : Name) : Prop :=
  ∃ place ∈ s.fieldsByType, place.1.name = type ∧ place.2.name = field

instance (s : Schema) (type field : Name) : Decidable (s.HasField type field) :=
  inferInstanceAs (Decidable (∃ place ∈ s.fieldsByType, _))

namespace Executable

/-- What is bound to the fields of a schema is what a map has for them. -/
structure Binds (e : Executable) (map : ResolverMap) : Prop where
  at_field : ∀ type field, e.schema.HasField type field →
    e.resolver? type field = choose? e.schema map type field
  from_map : ∀ type field r, e.resolver? type field = some r →
    choose? e.schema map type field = some r

/-- A typed entry is found first. -/
theorem choose?_typed {s : Schema} {map : ResolverMap} {type field : Name} {r : Resolver}
    (typed : map.leaf? [type, field] = some (.resolver r)) :
    choose? s map type field = some r := by
  simp [choose?, ResolverMap.resolver?_eq_leaf?, typed, Leaf.resolver?]

/-- A flat entry is found for a root type that has no entry of its own. -/
theorem choose?_flat {s : Schema} {map : ResolverMap} {type field : Name} {r : Resolver}
    (untyped : map.leaf? [type, field] = none) (root : s.isRoot type = true)
    (flat : map.leaf? [field] = some (.resolver r)) : choose? s map type field = some r := by
  simp [choose?, ResolverMap.resolver?_eq_leaf?, ResolverMap.flat?_eq_leaf?, untyped, root, flat,
    Leaf.resolver?]

/-- What is found is a typed entry, or a flat one for a root type. -/
theorem of_choose? {s : Schema} {map : ResolverMap} {type field : Name} {r : Resolver}
    (chosen : choose? s map type field = some r) :
    map.resolver? type field = some r ∨
      (s.isRoot type = true ∧ map.resolver? type field = none ∧
        map.leaf? [field] = some (.resolver r)) := by
  rw [choose?, Option.orElse_eq_orElse, Option.orElse_eq_or, Option.or_eq_some_iff] at chosen
  rcases chosen with typed | ⟨untyped, flat⟩
  · exact Or.inl typed
  · simp only [Option.ite_none_right_eq_some] at flat
    rw [ResolverMap.flat?_eq_leaf?] at flat
    exact Or.inr ⟨flat.1, untyped, Leaf.eq_of_resolver? flat.2⟩

/-- Binds what a map has for one field. -/
def bindPlace (map : ResolverMap) (e : Executable) (place : SchemaType × Field) : Executable :=
  match choose? e.schema map place.1.name place.2.name with
  | some r => e.bind place.1.name place.2.name r
  | none => e

theorem bindMap_eq (map : ResolverMap) (e : Executable) :
    e.bindMap map =
      { e.schema.fieldsByType.foldl (bindPlace map) e with isExecutable := true } := rfl

theorem schema_bindPlace (map : ResolverMap) (e : Executable) (place : SchemaType × Field) :
    (bindPlace map e place).schema = e.schema := by
  rw [bindPlace]
  split <;> rfl

theorem resolver?_bindPlace (map : ResolverMap) (e : Executable) (place : SchemaType × Field)
    (type field : Name) :
    (bindPlace map e place).resolver? type field =
      if place.1.name = type ∧ place.2.name = field then
        choose? e.schema map type field <|> e.resolver? type field
      else e.resolver? type field := by
  rw [bindPlace]
  split
  · rename_i r chosen
    rw [resolver?_bind]
    split
    · rename_i same
      rw [← same.1, ← same.2, chosen]
      rfl
    · rfl
  · rename_i chosen
    split
    · rename_i same
      rw [← same.1, ← same.2, chosen]
      rfl
    · rfl

theorem foldl_bindPlace (map : ResolverMap) (places : List (SchemaType × Field)) (e : Executable) :
    (places.foldl (bindPlace map) e).schema = e.schema ∧
      ∀ type field, (places.foldl (bindPlace map) e).resolver? type field =
        if ∃ place ∈ places, place.1.name = type ∧ place.2.name = field then
          choose? e.schema map type field <|> e.resolver? type field
        else e.resolver? type field := by
  induction places generalizing e with
  | nil => simp
  | cons place rest ih =>
    obtain ⟨schema, found⟩ := ih (bindPlace map e place)
    refine ⟨by rw [List.foldl_cons, schema, schema_bindPlace], ?_⟩
    intro type field
    rw [List.foldl_cons, found, schema_bindPlace, resolver?_bindPlace]
    by_cases here : place.1.name = type ∧ place.2.name = field
    · by_cases later : ∃ p ∈ rest, p.1.name = type ∧ p.2.name = field
      · cases choose? e.schema map type field <;> simp [here, later]
      · simp [here, later]
    · have same : (∃ p ∈ place :: rest, p.1.name = type ∧ p.2.name = field) ↔
          ∃ p ∈ rest, p.1.name = type ∧ p.2.name = field := by
        simp only [List.mem_cons, or_and_right, exists_or, exists_eq_left, or_iff_right here]
      simp only [same, if_neg here]

theorem schema_bindMap (map : ResolverMap) (e : Executable) :
    (e.bindMap map).schema = e.schema := (foldl_bindPlace map e.schema.fieldsByType e).1

theorem resolver?_bindMap {e : Executable} (bare : e.bound = []) (map : ResolverMap)
    (type field : Name) :
    (e.bindMap map).resolver? type field =
      if e.schema.HasField type field then choose? e.schema map type field else none := by
  have nothing : e.resolver? type field = none := by
    rw [resolver?, bare]
    rfl
  rw [bindMap_eq]
  refine ((foldl_bindPlace map e.schema.fieldsByType e).2 type field).trans ?_
  rw [nothing, Option.orElse_eq_orElse, Option.orElse_eq_or, Option.or_none]
  rfl

/-- Binding a map to a schema to which nothing is bound. -/
theorem binds_bindMap {e : Executable} (bare : e.bound = []) (map : ResolverMap) :
    (e.bindMap map).Binds map := by
  constructor
  · intro type field stands
    rw [schema_bindMap] at stands ⊢
    rw [resolver?_bindMap bare, if_pos stands]
  · intro type field r bound
    rw [resolver?_bindMap bare, Option.ite_none_right_eq_some] at bound
    rw [schema_bindMap]
    exact bound.2

end Executable
end SchemaStitch
