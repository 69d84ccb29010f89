import SchemaStitch.Proofs.Assoc
import SchemaStitch.Proofs.Bundle.Binding
import SchemaStitch.Proofs.KeyTree.Sites
import SchemaStitch.Proofs.ResolverMap.Paths
import SchemaStitch.Proofs.Schema.Build

/-! What is bound to a schema, taken out as a map. The map has a leaf for every bound field, in the
order of the schema, and all of it stands under types; so bound again it gives the same. -/
namespace SchemaStitch
open Sdl

namespace ResolverMap

theorem resolverOf?_eq_some {e : KeyTree.Entry Leaf} {r : Resolver} :
    resolverOf? e = some r ↔ e = entry r := by
  cases e with
  | leaf l => cases l <;> simp [resolverOf?, Leaf.resolver?, entry]
  | branch sub => simp [resolverOf?, entry]

theorem resolver?_eq_some {map : ResolverMap} {type field : Name} {r : Resolver} :
    map.resolver? type field = some r ↔ map.at? [type, field] = .ok (entry r) := by
  simp [resolver?, Option.bind_eq_some_iff, resolverOf?_eq_some, at?_ok]

theorem flat?_eq_some {map : ResolverMap} {field : Name} {r : Resolver} :
    map.flat? field = some r ↔ map.at? [field] = .ok (entry r) := by
  simp [flat?, Option.bind_eq_some_iff, resolverOf?_eq_some, at?_ok, KeyTree.find?_key]

theorem resolver?_eq_none {map : ResolverMap} {type field : Name}
    (untyped : ∀ r, map.at? [type, field] ≠ .ok (entry r)) : map.resolver? type field = none := by
  cases found : map.resolver? type field with
  | none => rfl
  | some r => exact absurd (resolver?_eq_some.mp found) (untyped r)

/-- The branch of the resolvers of some fields. -/
def leaves : Assoc Resolver → ResolverMap
  | [] => .nil
  | (field, r) :: rest => .leaf field (.resolver r) (leaves rest)

/-- The map of the resolvers of the fields of some types. -/
def branches : Assoc (Assoc Resolver) → ResolverMap
  | [] => .nil
  | (type, fields) :: rest => .branch type (leaves fields) (branches rest)

theorem keys_leaves (fields : Assoc Resolver) : (leaves fields).keys = fields.keys := by
  induction fields with
  | nil => rfl
  | cons pair rest ih => rw [leaves, KeyTree.keys, ih]; rfl

theorem keys_branches (bound : Assoc (Assoc Resolver)) : (branches bound).keys = bound.keys := by
  induction bound with
  | nil => rfl
  | cons pair rest ih => rw [branches, KeyTree.keys, ih]; rfl

theorem get?_leaves (fields : Assoc Resolver) (field : Name) :
    (leaves fields).get? field = (Assoc.get? fields field).map entry := by
  induction fields with
  | nil => rfl
  | cons pair rest ih =>
    rw [leaves, KeyTree.get?, Assoc.get?, ih]
    split <;> rfl

theorem get?_branches (bound : Assoc (Assoc Resolver)) (type : Name) :
    (branches bound).get? type =
      (Assoc.get? bound type).map fun fields => .branch (leaves fields) := by
  induction bound with
  | nil => rfl
  | cons pair rest ih =>
    rw [branches, KeyTree.get?, Assoc.get?, ih]
    split <;> rfl

/-- Entries with new keys go behind those that are there. -/
theorem foldl_insert {t : ResolverMap} {fields : Assoc Resolver}
    (nodup : (t.keys ++ fields.keys).Nodup) :
    (fields.map fun (f, r) => (f, entry r)).foldl (fun t (k, e) => t.insert k e) t =
      t.append (leaves fields) := by
  induction fields generalizing t with
  | nil => exact t.append_nil.symm
  | cons pair rest ih =>
    obtain ⟨field, r⟩ := pair
    have apart := (List.nodup_cons.mp (List.nodup_middle.mp nodup)).1
    have fresh : field ∉ t.keys := fun member => apart (List.mem_append_left _ member)
    have next : ((t.insert field (entry r)).keys ++ Assoc.keys rest).Nodup := by
      rw [KeyTree.keys_insert, if_neg fresh]
      simpa [Assoc.keys] using nodup
    rw [List.map_cons, List.foldl_cons, ih next, KeyTree.insert_append fresh]
    rfl

theorem ofFields_eq {fields : Assoc Resolver} (nodup : fields.keys.Nodup) :
    ofFields fields = leaves fields := by
  rw [ofFields, KeyTree.ofEntries, foldl_insert (by simpa [KeyTree.keys] using nodup)]
  rfl

theorem foldl_withType {t : ResolverMap} {bound : Assoc (Assoc Resolver)}
    (nodup : (t.keys ++ bound.keys).Nodup) (inner : ∀ pair ∈ bound, (Assoc.keys pair.2).Nodup) :
    bound.foldl (fun map (type, fields) => map.withType type fields) t =
      t.append (branches bound) := by
  induction bound generalizing t with
  | nil => exact t.append_nil.symm
  | cons pair rest ih =>
    obtain ⟨type, fields⟩ := pair
    obtain ⟨own, inner⟩ := List.forall_mem_cons.mp inner
    have apart := (List.nodup_cons.mp (List.nodup_middle.mp nodup)).1
    have fresh : type ∉ t.keys := fun member => apart (List.mem_append_left _ member)
    have written : t.withType type fields = t.insert type (.branch (leaves fields)) := by
      rw [withType, KeyTree.get?_eq_none.mpr fresh, ofFields_eq own]
    have next : ((t.insert type (.branch (leaves fields))).keys ++ Assoc.keys rest).Nodup := by
      rw [KeyTree.keys_insert, if_neg fresh]
      simpa [Assoc.keys] using nodup
    rw [List.foldl_cons]
    change rest.foldl _ (t.withType type fields) = _
    rw [written, ih next inner, KeyTree.insert_append fresh]
    rfl

theorem keyed_leaves {fields : Assoc Resolver} (nodup : fields.keys.Nodup) :
    (leaves fields).Keyed := by
  induction fields with
  | nil => trivial
  | cons pair rest ih =>
    obtain ⟨fresh, nodup⟩ := List.nodup_cons.mp nodup
    exact ⟨keys_leaves rest ▸ fresh, ih nodup⟩

theorem keyed_branches {bound : Assoc (Assoc Resolver)} (nodup : bound.keys.Nodup)
    (inner : ∀ pair ∈ bound, (Assoc.keys pair.2).Nodup) : (branches bound).Keyed := by
  induction bound with
  | nil => trivial
  | cons pair rest ih =>
    obtain ⟨fresh, nodup⟩ := List.nodup_cons.mp nodup
    obtain ⟨own, inner⟩ := List.forall_mem_cons.mp inner
    exact ⟨keys_branches rest ▸ fresh, keyed_leaves own, ih nodup inner⟩

theorem pruned_leaves (fields : Assoc Resolver) : (leaves fields).Pruned := by
  induction fields with
  | nil => trivial
  | cons pair rest ih => exact ih

theorem pruned_branches {bound : Assoc (Assoc Resolver)} (full : ∀ pair ∈ bound, pair.2 ≠ []) :
    (branches bound).Pruned := by
  induction bound with
  | nil => trivial
  | cons pair rest ih =>
    obtain ⟨type, fields⟩ := pair
    obtain ⟨own, full⟩ := List.forall_mem_cons.mp full
    refine ⟨?_, pruned_leaves fields, ih full⟩
    obtain ⟨first, others, rfl⟩ := List.exists_cons_of_ne_nil own
    rfl

/-- Where a resolver of a field of a type stands. -/
def site (type : Name) (place : Name × Resolver) : KeyTree.Site Leaf :=
  ⟨[type], place.1, .resolver place.2⟩

theorem sites_leaves (type : Name) (fields : Assoc Resolver) :
    (leaves fields).sites [type] = fields.map (site type) := by
  induction fields with
  | nil => rfl
  | cons pair rest ih => rw [leaves, KeyTree.sites, ih]; rfl

theorem sites_branches (bound : Assoc (Assoc Resolver)) :
    (branches bound).sites [] = bound.flatMap fun (type, fields) => fields.map (site type) := by
  induction bound with
  | nil => rfl
  | cons pair rest ih =>
    rw [branches, KeyTree.sites, List.nil_append, sites_leaves, ih]
    rfl

theorem resolver?_branches (bound : Assoc (Assoc Resolver)) (type field : Name) :
    (branches bound).resolver? type field =
      (Assoc.get? bound type).bind fun fields => Assoc.get? fields field := by
  rw [resolver?, KeyTree.find?_eq_bind, get?_branches]
  cases Assoc.get? bound type with
  | none => rfl
  | some fields =>
    change ((leaves fields).find? [field]).bind resolverOf? = Assoc.get? fields field
    rw [KeyTree.find?_key, get?_leaves]
    cases Assoc.get? fields field <;> rfl

/-- Nothing stands flat. -/
theorem flat?_branches (bound : Assoc (Assoc Resolver)) (field : Name) :
    (branches bound).flat? field = none := by
  rw [flat?, get?_branches]
  cases Assoc.get? bound field <;> rfl

end ResolverMap

namespace Executable

variable {s : Schema} {map : ResolverMap}

/-- The resolver that a map has for a field, with the name of the field. -/
def pick? (s : Schema) (map : ResolverMap) (type : Name) (f : Field) : Option (Name × Resolver) :=
  (choose? s map type f.name).map fun r => (f.name, r)

/-- A type with the resolvers of its fields, if there are any. -/
def group? (type : Name) (fields : Assoc Resolver) : Option (Name × Assoc Resolver) :=
  if fields.isEmpty then none else some (type, fields)

/-- What a map has for the fields of a schema, type by type. -/
def picked (s : Schema) (map : ResolverMap) : Assoc (Assoc Resolver) :=
  s.types.filterMap fun t => group? t.name (t.body.fields.filterMap (pick? s map t.name))

/-- Binding one more field of a type puts it behind those of the type, and the type behind all
others when it is the first. -/
theorem bound_bind {e : Executable} {type field : Name} {old : Assoc (Assoc Resolver)}
    {given : Assoc Resolver} (bound : e.bound = old ++ (group? type given).toList)
    (fresh : type ∉ old.keys) (new : field ∉ given.keys) (r : Resolver) :
    (e.bind type field r).bound = old ++ (group? type (given ++ [(field, r)])).toList := by
  cases given with
  | nil =>
    have bound : e.bound = old := by simpa [group?] using bound
    simp [bind, bound, Assoc.get?_eq_none fresh, Assoc.insert_fresh fresh, Assoc.insert, group?]
  | cons first rest =>
    have bound : e.bound = old ++ [(type, first :: rest)] := by simpa [group?] using bound
    rw [bind, bound, Assoc.get?_last fresh, Option.getD_some, Assoc.insert_fresh new,
      Assoc.insert_last fresh]
    rfl

/-- Binding the fields of one type, of which some are bound already. -/
theorem bound_fields {t : SchemaType} {e : Executable} (schema : e.schema = s)
    {old : Assoc (Assoc Resolver)} (fresh : t.name ∉ old.keys) {fields : List Field}
    {given : Assoc Resolver} (bound : e.bound = old ++ (group? t.name given).toList)
    (nodup : (given.keys ++ fields.map (·.name)).Nodup) :
    ((fields.map fun f => (t, f)).foldl (bindPlace map) e).bound =
      old ++ (group? t.name (given ++ fields.filterMap (pick? s map t.name))).toList := by
  induction fields generalizing e given with
  | nil => simpa using bound
  | cons f rest ih =>
    obtain ⟨apart, shorter⟩ := List.nodup_cons.mp (List.nodup_middle.mp nodup)
    have new : f.name ∉ given.keys := fun member => apart (List.mem_append_left _ member)
    rw [List.map_cons, List.foldl_cons, bindPlace, schema]
    cases chosen : choose? s map t.name f.name with
    | none =>
      have nothing : pick? s map t.name f = none := by rw [pick?, chosen]; rfl
      rw [List.filterMap_cons_none nothing]
      exact ih schema bound shorter
    | some r =>
      have own : pick? s map t.name f = some (f.name, r) := by rw [pick?, chosen]; rfl
      have longer : ((given ++ [(f.name, r)]).keys ++ rest.map (·.name)).Nodup := by
        simpa [Assoc.keys] using nodup
      rw [List.filterMap_cons_some own]
      simpa using ih (e := e.bind t.name f.name r) schema (bound_bind bound fresh new r) longer

theorem bound_types {e : Executable} (schema : e.schema = s) {types : List SchemaType}
    (nodup : (e.bound.keys ++ types.map (·.name)).Nodup)
    (fields : ∀ t ∈ types, (t.body.fields.map (·.name)).Nodup) :
    ((types.flatMap fun t => t.body.fields.map fun f => (t, f)).foldl (bindPlace map) e).bound =
      e.bound ++ types.filterMap fun t =>
        group? t.name (t.body.fields.filterMap (pick? s map t.name)) := by
  induction types generalizing e with
  | nil => simp
  | cons t rest ih =>
    obtain ⟨own, fields⟩ := List.forall_mem_cons.mp fields
    obtain ⟨apart, shorter⟩ := List.nodup_cons.mp (List.nodup_middle.mp nodup)
    have fresh : t.name ∉ e.bound.keys := fun member => apart (List.mem_append_left _ member)
    have nothing : e.bound = e.bound ++ (group? t.name []).toList := by simp [group?]
    have bound : ((t.body.fields.map fun f => (t, f)).foldl (bindPlace map) e).bound =
        e.bound ++ (group? t.name (t.body.fields.filterMap (pick? s map t.name))).toList :=
      bound_fields schema fresh nothing (by simpa [Assoc.keys] using own)
    have same := (foldl_bindPlace map (t.body.fields.map fun f => (t, f)) e).1.trans schema
    -- From here on only what is bound matters, not how it was bound.
    rw [List.flatMap_cons, List.foldl_append]
    generalize (t.body.fields.map fun f => (t, f)).foldl (bindPlace map) e = next at bound same ⊢
    have later : (next.bound.keys ++ rest.map (·.name)).Nodup := by
      rw [bound, group?]
      split
      · rwa [Option.toList_none, List.append_nil]
      · simpa [Assoc.keys] using nodup
    rw [ih same later fields, bound, List.append_assoc, List.filterMap_cons]
    cases group? t.name (t.body.fields.filterMap (pick? s map t.name)) <;> rfl

/-- What is bound to a schema to which nothing was bound, in its order. -/
theorem bound_eq_picked (distinct : s.Distinct) (map : ResolverMap) :
    ((ofSchema s).bindMap map).bound = picked s map :=
  bound_types rfl distinct.types distinct.fields

theorem keys_filterMap {α β : Type} {pick : α → Option (String × β)} {name : α → String}
    (named : ∀ x pair, pick x = some pair → pair.1 = name x) (xs : List α) :
    (Assoc.keys (xs.filterMap pick)).Sublist (xs.map name) := by
  induction xs with
  | nil => exact .refl _
  | cons x xs ih =>
    rw [List.map_cons]
    cases picked : pick x with
    | none =>
      rw [List.filterMap_cons_none picked]
      exact ih.cons _
    | some pair =>
      rw [List.filterMap_cons_some picked, ← named x pair picked]
      exact ih.cons_cons _

theorem of_group? {type : Name} {fields : Assoc Resolver} {pair : Name × Assoc Resolver}
    (grouped : group? type fields = some pair) : pair = (type, fields) ∧ fields ≠ [] := by
  rw [group?] at grouped
  split at grouped
  · cases grouped
  · rename_i full
    exact ⟨(Option.some.inj grouped).symm, by simpa using full⟩

theorem nodup_picked (distinct : s.Distinct) (map : ResolverMap) : (picked s map).keys.Nodup :=
  distinct.types.sublist (keys_filterMap (fun _ _ grouped => by rw [(of_group? grouped).1]) s.types)

theorem of_mem_picked (distinct : s.Distinct) {pair : Name × Assoc Resolver}
    (member : pair ∈ picked s map) : pair.2.keys.Nodup ∧ pair.2 ≠ [] := by
  obtain ⟨t, stands, grouped⟩ := List.mem_filterMap.mp member
  obtain ⟨rfl, full⟩ := of_group? grouped
  refine ⟨(distinct.fields t stands).sublist (keys_filterMap ?_ t.body.fields), full⟩
  intro f pair picked
  obtain ⟨r, _, rfl⟩ := Option.map_eq_some_iff.mp picked
  rfl

theorem toMap_bindMap (distinct : s.Distinct) (map : ResolverMap) :
    ((ofSchema s).bindMap map).toMap = .branches (picked s map) := by
  rw [toMap, bound_eq_picked distinct, ResolverMap.foldl_withType]
  · rfl
  · simpa [KeyTree.keys] using nodup_picked distinct map
  · exact fun pair member => (of_mem_picked distinct member).1

theorem sites_picked (s : Schema) (map : ResolverMap) :
    (ResolverMap.branches (picked s map)).sites [] = s.fieldsByType.filterMap fun place =>
      (choose? s map place.1.name place.2.name).map fun r =>
        ResolverMap.site place.1.name (place.2.name, r) := by
  rw [ResolverMap.sites_branches, picked, Schema.fieldsByType, List.filterMap_flatMap]
  induction s.types with
  | nil => rfl
  | cons t rest ih =>
    have own : (t.body.fields.filterMap (pick? s map t.name)).map (ResolverMap.site t.name) =
        (t.body.fields.map fun f => (t, f)).filterMap fun place =>
          (choose? s map place.1.name place.2.name).map fun r =>
            ResolverMap.site place.1.name (place.2.name, r) := by
      rw [List.map_filterMap, List.filterMap_map]
      refine List.filterMap_congr fun f _ => ?_
      simp [pick?, Function.comp_def]
    rw [List.flatMap_cons, ← own, List.filterMap_cons]
    cases grouped : group? t.name (t.body.fields.filterMap (pick? s map t.name)) with
    | none =>
      have empty : t.body.fields.filterMap (pick? s map t.name) = [] := by
        simpa [group?] using grouped
      rw [empty]
      exact ih
    | some pair =>
      obtain ⟨rfl, _⟩ := of_group? grouped
      rw [List.flatMap_cons]
      exact congrArg _ ih

theorem choose?_branches (s : Schema) (bound : Assoc (Assoc Resolver)) (type field : Name) :
    choose? s (.branches bound) type field =
      (Assoc.get? bound type).bind fun fields => Assoc.get? fields field := by
  rw [choose?, ResolverMap.resolver?_branches, ResolverMap.flat?_branches, ite_self]
  cases (Assoc.get? bound type).bind fun fields => Assoc.get? fields field <;> rfl

theorem bindMap_congr {e : Executable} {map other : ResolverMap}
    (same : ∀ place ∈ e.schema.fieldsByType,
      choose? e.schema map place.1.name place.2.name =
        choose? e.schema other place.1.name place.2.name) :
    e.bindMap map = e.bindMap other := by
  rw [bindMap_eq, bindMap_eq]
  generalize e.schema.fieldsByType = places at same
  induction places generalizing e with
  | nil => rfl
  | cons place rest ih =>
    obtain ⟨here, same⟩ := List.forall_mem_cons.mp same
    have step : bindPlace map e place = bindPlace other e place := by
      rw [bindPlace, bindPlace, here]
    rw [List.foldl_cons, List.foldl_cons, step]
    exact ih (by rwa [schema_bindPlace])

/-- What a map binds: to a field of the schema the resolver in the branch of its type; without one,
to a field of a root type the resolver that stands flat; and nothing besides. -/
structure BoundFrom (map : ResolverMap) (e : Executable) : Prop where
  typed : ∀ type field r, e.schema.HasField type field →
    map.at? [type, field] = .ok (ResolverMap.entry r) → e.resolver? type field = some r
  flat : ∀ type field r, e.schema.HasField type field →
    (∀ own, map.at? [type, field] ≠ .ok (ResolverMap.entry own)) → e.schema.isRoot type = true →
      (e.resolver? type field = some r ↔ map.at? [field] = .ok (ResolverMap.entry r))
  unbound : ∀ type field, e.schema.HasField type field →
    (∀ own, map.at? [type, field] ≠ .ok (ResolverMap.entry own)) → e.schema.isRoot type = false →
      e.resolver? type field = none
  elsewhere : ∀ type field, ¬ e.schema.HasField type field → e.resolver? type field = none

/-- What is bound as a map: a leaf for every bound field, in the branch of its type, types and
fields in the order of the schema. -/
structure Extracted (e : Executable) (map : ResolverMap) : Prop where
  keyed : map.Keyed
  pruned : map.Pruned
  sites : map.sites [] = e.schema.fieldsByType.filterMap fun place =>
    (e.resolver? place.1.name place.2.name).map fun r =>
      ResolverMap.site place.1.name (place.2.name, r)

theorem hasField_of_mem {place : SchemaType × Field} (member : place ∈ s.fieldsByType) :
    s.HasField place.1.name place.2.name := ⟨place, member, rfl, rfl⟩

theorem resolver?_ofSchema (s : Schema) (map : ResolverMap) (type field : Name) :
    ((ofSchema s).bindMap map).resolver? type field =
      if s.HasField type field then choose? s map type field else none :=
  resolver?_bindMap (e := ofSchema s) rfl map type field

theorem boundFrom_bindMap (s : Schema) (map : ResolverMap) :
    BoundFrom map ((ofSchema s).bindMap map) := by
  have schema : ((ofSchema s).bindMap map).schema = s := schema_bindMap map (ofSchema s)
  constructor
  all_goals simp only [schema, resolver?_ofSchema]
  · intro type field r has typed
    rw [if_pos has, choose?, ResolverMap.resolver?_eq_some.mpr typed]
    rfl
  · intro type field r has untyped root
    rw [if_pos has, choose?, ResolverMap.resolver?_eq_none untyped, if_pos root,
      ← ResolverMap.flat?_eq_some]
    rfl
  · intro type field has untyped root
    rw [if_pos has, choose?, ResolverMap.resolver?_eq_none untyped, root]
    rfl
  · intro type field lacks
    rw [if_neg lacks]

theorem extracted_bindMap (distinct : s.Distinct) (map : ResolverMap) :
    Extracted ((ofSchema s).bindMap map) ((ofSchema s).bindMap map).toMap := by
  constructor
  all_goals rw [toMap_bindMap distinct]
  · exact ResolverMap.keyed_branches (nodup_picked distinct map)
      fun pair member => (of_mem_picked distinct member).1
  · exact ResolverMap.pruned_branches fun pair member => (of_mem_picked distinct member).2
  · rw [sites_picked, schema_bindMap]
    refine List.filterMap_congr fun place member => ?_
    rw [resolver?_ofSchema, if_pos (hasField_of_mem member)]

/-- The map that is taken out of a schema binds what was bound to it. -/
theorem bindMap_toMap (distinct : s.Distinct) (map : ResolverMap) :
    (ofSchema s).bindMap ((ofSchema s).bindMap map).toMap = (ofSchema s).bindMap map := by
  refine bindMap_congr (e := ofSchema s) fun place member => ?_
  have bound := resolver?_ofSchema s map place.1.name place.2.name
  rw [if_pos (hasField_of_mem (s := s) member), resolver?, bound_eq_picked distinct] at bound
  rw [toMap_bindMap distinct]
  exact (choose?_branches s (picked s map) _ _).trans bound

/-- Binding a map to a schema and taking the bound resolvers out again: the map binds what it has for
the fields and nothing else, what is taken out has a leaf for every bound field in the order of the
schema, and it binds the same as the map did. -/
theorem bindMap_round_trips (distinct : s.Distinct) (map : ResolverMap) :
    BoundFrom map ((ofSchema s).bindMap map) ∧
      Extracted ((ofSchema s).bindMap map) ((ofSchema s).bindMap map).toMap ∧
      (ofSchema s).bindMap ((ofSchema s).bindMap map).toMap = (ofSchema s).bindMap map :=
  ⟨boundFrom_bindMap s map, extracted_bindMap distinct map, bindMap_toMap distinct map⟩

theorem bindMap_round_trips_flat :
    ∃ (s : Schema) (map : ResolverMap), s.Distinct ∧ s.isValid = true ∧
      ((((ofSchema s).bindMap map).toMap.sites []).map KeyTree.Site.place =
        [(["Query"], "now"), (["Query"], "user"), (["User"], "name"), (["Change"], "now")]) ∧
      BoundFrom map ((ofSchema s).bindMap map) ∧
      Extracted ((ofSchema s).bindMap map) ((ofSchema s).bindMap map).toMap ∧
      (ofSchema s).bindMap ((ofSchema s).bindMap map).toMap = (ofSchema s).bindMap map := by
  let text := "schema \x7b query: Query mutation: Change \x7d
    type Query \x7b now: Int user: User \x7d
    type User \x7b now: Int name: String \x7d
    type Change \x7b now: Int rename: User \x7d"
  let r : Leaf := .resolver (.function ⟨7, .info, none⟩ Resolver.readParent)
  let map : ResolverMap := .leaf "now" r (.leaf "name" r (.branch "User" (.leaf "name" r .nil)
    (.branch "Query" (.leaf "user" r (.leaf "gone" r .nil)) (.leaf "rename" (.value .null) .nil))))
  have read : ((Document.parse? text).bind (Schema.build? .refuse)).any (fun raw =>
      raw.validate?.any fun s => s.isValid &&
        (((ofSchema s).bindMap map).toMap.sites []).map KeyTree.Site.place ==
          [(["Query"], "now"), (["Query"], "user"), (["User"], "name"), (["Change"], "now")]) =
      true := by
    decide +kernel
  obtain ⟨raw, read, passes⟩ := (Option.any_eq_true _ _).mp read
  obtain ⟨s, valid, passes⟩ := (Option.any_eq_true _ _).mp passes
  simp only [Bool.and_eq_true, beq_iff_eq] at passes
  obtain ⟨d, _, built⟩ := Option.bind_eq_some_iff.mp read
  have distinct : s.Distinct := (Schema.distinct_of_build? built).of_validate? valid
  exact ⟨s, map, distinct, passes.1, passes.2, bindMap_round_trips distinct map⟩

end Executable
end SchemaStitch
