import SchemaStitch.Bundle.Merge
import SchemaStitch.Proofs.Bundle.Binding
import SchemaStitch.Proofs.KeyTree.Pruning
import SchemaStitch.Proofs.ResolverMap.Walk

/-! Filling gaps in a resolver map. What is bound by type and field stays bound to the same resolver,
and what comes to be bound reads the parent value. A write for a type takes the place of a flat
entry with the name of that type, which is why a field of a root type can lose its resolver here. -/
namespace SchemaStitch
open Sdl

/-- The resolver that fills gaps, up to its identity. -/
def Resolver.fieldReader (id : Nat) : Resolver :=
  .function ⟨id, .info, some "defaultFieldResolver"⟩ readParent

/-- Whether an object of a schema has a field. -/
def Schema.HasObjectField (s : Schema) (type field : Name) : Prop :=
  ∃ place ∈ s.fieldsByType, place.1.kind = .object ∧ place.1.name = type ∧ place.2.name = field

instance Schema.decidableHasObjectField (s : Schema) (type field : Name) :
    Decidable (s.HasObjectField type field) :=
  inferInstanceAs (Decidable (∃ place ∈ s.fieldsByType, _))

theorem Schema.HasObjectField.hasField {s : Schema} {type field : Name}
    (stands : s.HasObjectField type field) : s.HasField type field := by
  obtain ⟨place, member, _, named⟩ := stands
  exact ⟨place, member, named⟩

namespace ResolverMap

theorem resolver?_eq_branchAt (map : ResolverMap) (type field : Name) :
    map.resolver? type field = ((map.branchAt [type]).get? field).bind resolverOf? := by
  rw [resolver?, KeyTree.find?_eq_bind, KeyTree.branchAt_single]
  cases map.get? type with
  | none => rfl
  | some e =>
    cases e with
    | leaf l => rfl
    | branch sub =>
      rw [Option.bind_some, KeyTree.Entry.find?, if_neg (by simp), KeyTree.find?_eq_bind]
      cases sub.get? field with
      | none => rfl
      | some e => cases e <;> rfl

theorem resolver?_setAt (map : ResolverMap) (type field : Name) (r : Resolver)
    (otherType otherField : Name) :
    ResolverMap.resolver? (map.setAt field (entry r) [type]).1 otherType otherField =
      if type = otherType ∧ field = otherField then some r
      else map.resolver? otherType otherField := by
  rw [resolver?_eq_branchAt, resolver?_eq_branchAt, KeyTree.setAt_single]
  by_cases here : type = otherType
  · subst otherType
    rw [KeyTree.branchAt_insert, KeyTree.get?_insert]
    by_cases there : field = otherField
    · simp [there, entry, resolverOf?, Leaf.resolver?]
    · simp [there]
  · rw [KeyTree.branchAt_single, KeyTree.get?_insert, if_neg here, ← KeyTree.branchAt_single]
    simp [here]

/-- Whether a field counts as bound when gaps are filled. -/
def Occupied (s : Schema) (map : ResolverMap) (type field : Name) : Prop :=
  (map.resolver? type field).isSome ∨ s.isRoot type ∧ (map.get? field).isSome

/-- What filling gaps leaves of a resolver map and what it adds. -/
structure Filled (s : Schema) (before after : ResolverMap) : Prop where
  keeps : ∀ type field r, before.resolver? type field = some r →
    after.resolver? type field = some r
  gained : ∀ type field r, before.resolver? type field = none →
    after.resolver? type field = some r →
      (∃ id, r = .fieldReader id) ∧ s.HasObjectField type field ∧ ¬ Occupied s before type field
  flat : ∀ field, after.leaf? [field] = before.leaf? [field] ∨
    ∃ sub, after.get? field = some (.branch sub)
  branches : ∀ key sub, before.get? key = some (.branch sub) →
    ∃ sub', after.get? key = some (.branch sub')
  origin : ∀ key sub, after.get? key = some (.branch sub) →
    (∃ sub', before.get? key = some (.branch sub')) ∨ ∃ field, s.HasObjectField key field

theorem Filled.entries {s : Schema} {before after : ResolverMap} (filled : Filled s before after)
    {key : Name} (present : (before.get? key).isSome) : (after.get? key).isSome := by
  obtain ⟨e, found⟩ := Option.isSome_iff_exists.mp present
  cases e with
  | branch sub =>
    obtain ⟨sub', stands⟩ := filled.branches key sub found
    rw [stands]
    rfl
  | leaf l =>
    rcases filled.flat key with same | ⟨sub, stands⟩
    · rw [KeyTree.leaf?_single.mpr found] at same
      rw [KeyTree.leaf?_single.mp same]
      rfl
    · rw [stands]
      rfl

theorem Filled.occupied {s : Schema} {before after : ResolverMap} (filled : Filled s before after)
    {type field : Name} (occupied : Occupied s before type field) :
    Occupied s after type field := by
  rcases occupied with typed | ⟨root, present⟩
  · obtain ⟨r, found⟩ := Option.isSome_iff_exists.mp typed
    exact Or.inl (Option.isSome_iff_exists.mpr ⟨r, filled.keeps type field r found⟩)
  · exact Or.inr ⟨root, filled.entries present⟩

theorem Filled.refl (s : Schema) (map : ResolverMap) : Filled s map map where
  keeps _ _ _ found := found
  gained type field r unbound found := by
    rw [unbound] at found
    contradiction
  flat _ := Or.inl rfl
  branches _ sub found := ⟨sub, found⟩
  origin _ sub found := Or.inl ⟨sub, found⟩

theorem Filled.trans {s : Schema} {first second third : ResolverMap} (before : Filled s first second)
    (later : Filled s second third) : Filled s first third where
  keeps type field r found := later.keeps type field r (before.keeps type field r found)
  gained type field r unbound found := by
    cases middle : second.resolver? type field with
    | some own =>
      have stands := later.keeps type field own middle
      obtain rfl : own = r := Option.some.inj (stands.symm.trans found)
      exact before.gained type field own unbound middle
    | none =>
      obtain ⟨reads, place, vacant⟩ := later.gained type field r middle found
      exact ⟨reads, place, fun occupied => vacant (before.occupied occupied)⟩
  flat field := by
    rcases later.flat field with same | branch
    · rcases before.flat field with same' | ⟨sub, stands⟩
      · exact Or.inl (same.trans same')
      · exact Or.inr (later.branches field sub stands)
    · exact Or.inr branch
  branches key sub found := by
    obtain ⟨sub', stands⟩ := before.branches key sub found
    exact later.branches key sub' stands
  origin key sub found := by
    rcases later.origin key sub found with ⟨sub', stands⟩ | place
    · exact before.origin key sub' stands
    · exact Or.inr place

/-- Filling one gap. -/
theorem filled_setAt {s : Schema} {map : ResolverMap} {type field : Name}
    (place : s.HasObjectField type field) (vacant : ¬ Occupied s map type field) (id : Nat) :
    Filled s map (map.setAt field (entry (.fieldReader id)) [type]).1 where
  keeps otherType otherField r found := by
    rw [resolver?_setAt, if_neg, found]
    rintro ⟨rfl, rfl⟩
    exact vacant (Or.inl (Option.isSome_iff_exists.mpr ⟨r, found⟩))
  gained otherType otherField r unbound found := by
    rw [resolver?_setAt] at found
    split at found
    · rename_i same
      obtain ⟨rfl, rfl⟩ := same
      exact ⟨⟨id, (Option.some.inj found).symm⟩, place, vacant⟩
    · rw [unbound] at found
      contradiction
  flat key := by
    by_cases same : type = key
    · subst key
      right
      rw [KeyTree.get?_setAt, if_pos rfl]
      exact ⟨_, rfl⟩
    · left
      rw [KeyTree.leaf?_eq_bind, KeyTree.leaf?_eq_bind, KeyTree.get?_setAt, if_neg same]
  branches key sub found := by
    rw [KeyTree.get?_setAt]
    split
    · exact ⟨_, rfl⟩
    · exact ⟨sub, found⟩
  origin key sub found := by
    rw [KeyTree.get?_setAt] at found
    split at found
    · rename_i same
      subst key
      exact Or.inr ⟨field, place⟩
    · exact Or.inl ⟨sub, found⟩

/-- Filling keeps what any write for a field keeps. -/
theorem fill_spec {s : Schema} {P : ResolverMap → Prop}
    (writes : ∀ map type field id, P map →
      P (map.setAt field (entry (.fieldReader id)) [type]).1)
    {map : ResolverMap} (holds : P map) {type field : Name} (place : s.HasObjectField type field)
    (n : Nat) :
    ∃ out n', (fillMissing.fill s map type field).run n = (out, n') ∧ P out ∧ Filled s map out ∧
      Occupied s out type field := by
  rw [fillMissing.fill]
  split
  · rename_i bound
    refine ⟨map, n, rfl, holds, .refl s map, ?_⟩
    simpa [Occupied] using bound
  · rename_i gap
    have vacant : ¬ Occupied s map type field := by simpa [Occupied] using gap
    refine ⟨_, _, rfl, writes map type field n holds, filled_setAt place vacant n, Or.inl ?_⟩
    have written := resolver?_setAt map type field (.fieldReader n) type field
    rw [if_pos ⟨rfl, rfl⟩] at written
    exact Option.isSome_iff_exists.mpr ⟨_, written⟩

/-- After gaps have been filled every field of an object counts as bound. -/
theorem fillMissing_spec {s : Schema} {P : ResolverMap → Prop}
    (writes : ∀ map type field id, P map →
      P (map.setAt field (entry (.fieldReader id)) [type]).1)
    {map : ResolverMap} (holds : P map) (n : Nat) :
    ∃ out n', (map.fillMissing s).run n = (out, n') ∧ P out ∧ Filled s map out ∧
      ∀ type field, s.HasObjectField type field → Occupied s out type field := by
  have places (places : List (SchemaType × Field))
      (all : ∀ place ∈ places, s.HasObjectField place.1.name place.2.name) :
      ∃ out n', ((places.foldlM (fun map (place : SchemaType × Field) =>
          fillMissing.fill s map place.1.name place.2.name) map : Supply ResolverMap).run n) =
            (out, n') ∧ P out ∧ Filled s map out ∧
        ∀ place ∈ places, Occupied s out place.1.name place.2.name := by
    induction places generalizing map n with
    | nil => exact ⟨map, n, rfl, holds, .refl s map, by simp⟩
    | cons place rest ih =>
      obtain ⟨first, n₁, run, first_holds, first_filled, occupied⟩ :=
        fill_spec writes holds (all place List.mem_cons_self) n
      obtain ⟨out, n₂, later, out_holds, filled, others⟩ :=
        ih first_holds n₁ fun place member => all place (List.mem_cons_of_mem _ member)
      refine ⟨out, n₂, ?_, out_holds, first_filled.trans filled, ?_⟩
      · rw [List.foldlM_cons, run_bind, run]
        exact later
      · intro other member
        rcases List.mem_cons.mp member with rfl | member
        · exact filled.occupied occupied
        · exact others other member
  obtain ⟨out, n', run, out_holds, filled, occupied⟩ :=
    places (s.fieldsByType.filter fun place => place.1.kind == .object) (by
      intro place member
      rw [List.mem_filter, beq_iff_eq] at member
      exact ⟨place, member.1, member.2, rfl, rfl⟩)
  refine ⟨out, n', run, out_holds, filled, ?_⟩
  rintro type field ⟨place, member, object, rfl, rfl⟩
  exact occupied place (List.mem_filter.mpr ⟨member, beq_iff_eq.mpr object⟩)

end ResolverMap
end SchemaStitch
