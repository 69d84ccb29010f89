import SchemaStitch.Proofs.Bundle.Reached
import SchemaStitch.Proofs.ResolverMap.Filling

/-! Merges that fill gaps, beside the same merges without that. A field of an object is left without
a resolver, and a resolver is lost, in one case: the field is one of a root type and has the name of
a branch of the map, as a rule that of an object type. -/
namespace SchemaStitch
open Sdl

namespace Pare

theorem takeResolver_pruned (isRoot : Bool) (type : Name) {map : ResolverMap} (pruned : map.Pruned)
    (field : Name) : (takeResolver isRoot type map field).Pruned := by
  have removed := pruned.removeAt [type, field]
  rw [takeResolver]
  generalize map.removeAt [type, field] = taken at removed ⊢
  obtain ⟨rest, answer⟩ := taken
  cases answer with
  | some e => exact removed
  | none =>
    dsimp only
    split
    · exact removed.erase field
    · exact removed

theorem takeAll_pruned (isRoot : Bool) (type : Name) (fields : List Name) {map : ResolverMap}
    (pruned : map.Pruned) : (fields.foldl (takeResolver isRoot type) map).Pruned := by
  induction fields generalizing map with
  | nil => exact pruned
  | cons field rest ih => exact ih (takeResolver_pruned isRoot type pruned field)

theorem subtract_pruned (roots : List Name) (r : Definition) (left : Document) {map : ResolverMap}
    (pruned : map.Pruned) : (subtract roots r left map).2.Pruned := by
  induction left with
  | nil => exact pruned
  | cons l rest ih =>
    rw [subtract_cons]
    split
    · exact takeAll_pruned _ _ _ pruned
    · exact ih

theorem subtractAll_pruned (roots : List Name) (right left : Document) {map : ResolverMap}
    (pruned : map.Pruned) : (subtractAll roots right left map).2.Pruned := by
  induction right generalizing left map with
  | nil => exact pruned
  | cons r rest ih => exact ih _ (subtract_pruned roots r left pruned)

end Pare

theorem Snapshot.pruned_foldAll {history : List Snapshot}
    (pruned : ∀ s ∈ history, s.resolvers.Pruned) : (foldAll history).Pruned := by
  induction history using List.reverseRecOn with
  | nil => trivial
  | append_singleton history s ih =>
    rw [foldAll_append]
    exact (ih fun s member => pruned s (by simp [member])).overlay (pruned s (by simp))

namespace ResolverMap

theorem Plain.setAt {map : ResolverMap} (plain : map.Plain) (type field : Name) (id : Nat) :
    Plain (map.setAt field (entry (.fieldReader id)) [type]).1 := by
  intro path l found
  rcases KeyTree.leaf?_of_setAt found with rfl | before
  · exact ⟨_, rfl, rfl⟩
  · exact plain path l before

/-- One resolver is another one up to what merges put around it. -/
def Recast (r r' : Resolver) : Prop := r'.unmerged = r.unmerged

theorem Renewed.mono {P Q : Resolver → Resolver → Prop} {before after : ResolverMap}
    (renewed : Renewed P before after) (weaker : ∀ r r', P r r' → Q r r') :
    Renewed Q before after := by
  intro path
  have answered := renewed path
  generalize before.leaf? path = l, after.leaf? path = l' at answered ⊢
  cases answered with
  | nothing => exact .nothing
  | answer good =>
    obtain ⟨seen, own, good⟩ := good
    exact .answer ⟨seen, own, weaker _ _ good⟩

theorem Renewed.recast_trans {first second third : ResolverMap} (before : Renewed Recast first second)
    (later : Renewed Recast second third) : Renewed Recast first third := by
  intro path
  have one := before path
  have two := later path
  generalize first.leaf? path = l, second.leaf? path = l', third.leaf? path = l'' at one two ⊢
  cases one with
  | nothing =>
    cases two
    exact .nothing
  | answer good =>
    cases two with
    | answer good' =>
      obtain ⟨seen, own, same⟩ := good
      obtain ⟨seen', own', same'⟩ := good'
      obtain rfl := own' _ rfl
      exact .answer ⟨seen, own, same'.trans same⟩

theorem Plain.recast {map : ResolverMap} (plain : map.Plain) : Renewed Recast map map := by
  intro path
  cases found : map.leaf? path with
  | none => exact .nothing
  | some l =>
    obtain ⟨r, rfl, _⟩ := plain path l found
    exact .answer ⟨r, fun own same => (Leaf.resolver.inj same).symm, rfl⟩

/-- What stands at a path of a map of resolvers, before and after it is renewed. -/
theorem Renewed.recast_cases {before after : ResolverMap} (renewed : Renewed Recast before after)
    (plain : before.Plain) (path : List String) :
    (before.leaf? path = none ∧ after.leaf? path = none) ∨
      ∃ r r', before.leaf? path = some (.resolver r) ∧ after.leaf? path = some (.resolver r') ∧
        r'.unmerged = r.unmerged := by
  cases found : before.leaf? path with
  | none => exact Or.inl ⟨rfl, (renewed.none_iff path).mpr found⟩
  | some l =>
    obtain ⟨r, rfl, _⟩ := plain path l found
    obtain ⟨r', stands, same⟩ := renewed.resolver found
    exact Or.inr ⟨r, r', rfl, stands, same⟩

end ResolverMap

namespace Bundle

variable {σ : Type}

/-- The resolvers of a merge come from its folded history: gaps are filled if the options say so,
then merges put their layers around what there is. -/
structure Woven {m : Type → Type} (o : MergeOptions m) (merged : Bundle)
    (folded filled out : ResolverMap) : Prop where
  plain : filled.Plain
  off : o.createMissing = false → filled = folded
  on : o.createMissing = true → ∃ s, merged.typeSchema = .ok s ∧ ResolverMap.Filled s folded filled ∧
    ∀ type field, s.HasObjectField type field → ResolverMap.Occupied s filled type field
  renewed : ResolverMap.Renewed ResolverMap.Recast filled out
  pruned : filled.Pruned → out.Pruned

section Steps

variable {m : Type → Type} {o : MergeOptions m} {merged : Bundle} {map out : ResolverMap} {n n' : Nat}

theorem fillStep_spec {P : ResolverMap → Prop}
    (writes : ∀ (map : ResolverMap) type field id, P map →
      P (map.setAt field (ResolverMap.entry (.fieldReader id)) [type]).1)
    (holds : P map) (done : (fillStep o merged map).run.run n = (.ok out, n')) :
    P out ∧ (o.createMissing = false → out = map) ∧
      (o.createMissing = true → ∃ s, merged.typeSchema = .ok s ∧ ResolverMap.Filled s map out ∧
        ∀ type field, s.HasObjectField type field → ResolverMap.Occupied s out type field) := by
  rw [fillStep] at done
  split at done
  · rename_i on
    obtain ⟨s, k, typed, filling⟩ := of_run_bind done
    obtain ⟨own, k', run, kept, gaps, occupied⟩ := ResolverMap.fillMissing_spec (s := s) writes holds k
    have result : (Except.ok own, k') = (Except.ok (ε := StitchError) out, n') := by
      rw [← filling, ExceptT.run_mk, StateT.run_map, run]
      rfl
    cases result
    refine ⟨kept, fun off => by simp [off] at on, fun _ => ⟨s, ?_, gaps, occupied⟩⟩
    exact congrArg Prod.fst typed
  · rename_i off
    cases done
    exact ⟨holds, fun _ => rfl, fun on => absurd on off⟩

theorem injectStep_recast (keyed : map.Keyed) (plain : map.Plain)
    (done : (injectStep o map).run.run n = (.ok out, n')) :
    out.Keyed ∧ ResolverMap.Renewed ResolverMap.Recast map out ∧ (map.Pruned → out.Pruned) := by
  rw [injectStep] at done
  split at done
  · rename_i some_injector
    have some_injector : o.injectors.isEmpty = false := by simpa using some_injector
    obtain ⟨own, k, run, _, own_keyed, pruned, answers⟩ :=
      ResolverMap.injectCalls_run some_injector keyed (Nat.le_refl n)
    rw [run_fromWalk, run] at done
    cases done
    refine ⟨own_keyed, answers.mono ?_, fun _ => pruned⟩
    rintro r _ ⟨_, _, rfl⟩
    rfl
  · cases done
    exact ⟨keyed, plain.recast, id⟩

theorem seeStep_recast (keyed : map.Keyed) {before : ResolverMap}
    (renewed : ResolverMap.Renewed ResolverMap.Recast before map)
    (done : (seeStep o merged map).run.run n = (.ok out, n')) :
    ResolverMap.Renewed ResolverMap.Recast before out ∧ (map.Pruned → out.Pruned) := by
  rw [seeStep] at done
  split at done
  · obtain ⟨s, k, typed, walked⟩ := of_run_bind done
    obtain ⟨own, k', run, _, _, pruned, answers⟩ :=
      ResolverMap.injectSchema_run s keyed (Nat.le_refl k)
    rw [run_fromWalk, run] at walked
    cases walked
    refine ⟨renewed.recast_trans (answers.mono ?_), fun _ => pruned⟩
    rintro r _ ⟨_, _, rfl⟩
    rfl
  · cases done
    exact ⟨renewed, id⟩

/-- What holds of the folded history and stays true under writes for fields holds once gaps have
been filled. -/
theorem weave {P : ResolverMap → Prop}
    (writes : ∀ (map : ResolverMap) type field id, P map →
      P (map.setAt field (ResolverMap.entry (.fieldReader id)) [type]).1)
    {history : List Snapshot} (sound : ∀ s ∈ history, s.Sound)
    (holds : P (Snapshot.foldAll history))
    (done : (stitch o merged history).run.run n = (.ok out, n')) :
    ∃ filled, P filled ∧ Woven o merged (Snapshot.foldAll history) filled out := by
  rw [stitch_eq] at done
  obtain ⟨injected, n₂, done, seen⟩ := of_run_bind done
  obtain ⟨filled, n₁, fill, inject⟩ := of_run_bind done
  obtain ⟨⟨keyed, plain, kept⟩, off, on⟩ := fillStep_spec
    (P := fun map => map.Keyed ∧ map.Plain ∧ P map)
    (fun map type field id ⟨keyed, plain, holds⟩ =>
      ⟨keyed.setAt (e := .leaf _) trivial _ _, plain.setAt type field id,
        writes map type field id holds⟩)
    ⟨Snapshot.keyed_foldAll sound, Snapshot.plain_foldAll sound, holds⟩ fill
  obtain ⟨injected_keyed, around, injected_pruned⟩ := injectStep_recast keyed plain inject
  obtain ⟨renewed, pruned⟩ := seeStep_recast injected_keyed around seen
  exact ⟨filled, kept, plain, off, on, renewed, fun before => pruned (injected_pruned before)⟩

end Steps

theorem pruned_capture {b : Bundle} (sound : b.Sound) (n : Nat) :
    ((Snapshot.capture b).run n).1.resolvers.Pruned := by
  obtain ⟨s, n', run, _, _, pruned, _⟩ := sound.capture (Nat.le_refl n)
  rw [run]
  exact pruned

theorem pruned_mergedHistory {left right : Bundle} (left_sound : left.Sound)
    (right_sound : right.Sound) (of_left : ∀ s ∈ left.history, s.resolvers.Pruned)
    (of_right : ∀ s ∈ right.history, s.resolvers.Pruned) (next : Nat) :
    ∀ s ∈ ((mergedHistory left right).run next).1, s.resolvers.Pruned := by
  rw [mergedHistory, run_bind, run_bind]
  exact forall_joined of_left of_right (pruned_capture left_sound _) (pruned_capture right_sound _)

/-- No snapshot holds an empty branch. -/
theorem Reached.pruned {b : Bundle} (reached : b.Reached) : ∀ s ∈ b.history, s.resolvers.Pruned := by
  induction reached with
  | ofSource own made ih =>
    rcases of_ofSource made with same | fresh
    · exact ih _ same
    · simp [fresh.history]
  | @ofParts source map b own keyed made ih =>
    obtain ⟨first, begun, parts⟩ := ofParts_cases made
    have first_pruned : ∀ s ∈ first.history, s.resolvers.Pruned := by
      rcases of_ofSource begun with same | fresh
      · exact ih _ same
      · simp [fresh.history]
    rcases parts with ⟨_, _, _, _, _, rfl⟩ | rfl <;> exact first_pruned
  | setResolvers before keyed ih => exact ih
  | withScalar before name c ih => exact ih
  | clear before ih => exact ih
  | schema before built ih =>
    rw [(before.sound.schema built).2.2.2]
    exact ih
  | mergeSdl merges => simp [(of_mergeSdl merges).history]
  | @merge σ o left right merged next before beside merges left_ih right_ih =>
    obtain ⟨s, run⟩ := merges
    obtain ⟨first, map, _, _, _, rfl⟩ := merge_steps run
    exact pruned_mergedHistory before.sound beside.sound left_ih right_ih next
  | pare before done ih =>
    obtain ⟨o, left, right, _, _, made⟩ := of_pare before.sound done
    intro s member
    rw [made.history, List.mem_map] at member
    obtain ⟨s, member, rfl⟩ := member
    exact Pare.subtractAll_pruned _ _ _ (ih s member)

theorem build_of_schema {b b' : Bundle} {e : Executable} (uncached : b.cache = none)
    (built : b.schema = .ok (e, b')) : b.build = .ok e := by
  rcases schema_cases built with ⟨cached, _⟩ | ⟨made, _⟩
  · rw [uncached] at cached
    cases cached
  · exact made

theorem typed_of_schema {b b' : Bundle} {e : Executable} (uncached : b.cache = none)
    (built : b.schema = .ok (e, b')) : b.typeSchema = .ok e.schema :=
  typed_of_build (build_of_schema uncached built)

/-- A field of a root type that has no entry in the branch of its type and the name of a branch. -/
structure Shadowed (s : Schema) (map : ResolverMap) (type field : Name) : Prop where
  root : s.isRoot type = true
  untyped : map.leaf? [type, field] = none
  branch : ∃ sub, map.get? field = some (.branch sub)

theorem Shadowed.unbound {s : Schema} {map : ResolverMap} {type field : Name}
    (shadowed : Shadowed s map type field) : Executable.choose? s map type field = none := by
  obtain ⟨root, untyped, sub, branch⟩ := shadowed
  simp [Executable.choose?, ResolverMap.resolver?_eq_leaf?, ResolverMap.flat?, untyped, root, branch,
    ResolverMap.resolverOf?]

section Twins

variable {s : Schema} {folded filled x y : ResolverMap}

/-- With gaps filled, a field of an object is left unbound in one case only. -/
theorem shadowed_of_unbound (plain : filled.Plain) (pruned : filled.Pruned)
    (renewed : ResolverMap.Renewed ResolverMap.Recast filled y) {type field : Name}
    (occupied : ResolverMap.Occupied s filled type field)
    (unbound : Executable.choose? s y type field = none) : Shadowed s y type field := by
  have untyped : y.leaf? [type, field] = none ∧ filled.leaf? [type, field] = none := by
    rcases renewed.recast_cases plain [type, field] with ⟨before, after⟩ | ⟨r, r', _, stands, _⟩
    · exact ⟨after, before⟩
    · rw [Executable.choose?_typed stands] at unbound
      contradiction
  rcases occupied with typed | ⟨root, present⟩
  · simp [ResolverMap.resolver?_eq_leaf?, untyped.2] at typed
  · refine ⟨root, untyped.1, ?_⟩
    obtain ⟨e, found⟩ := Option.isSome_iff_exists.mp present
    cases e with
    | branch sub => exact pruned.same_branch renewed.none_iff found
    | leaf l =>
      obtain ⟨own, rfl, _⟩ := plain [field] l (KeyTree.leaf?_single.mpr found)
      obtain ⟨r', stands, _⟩ := renewed.resolver (KeyTree.leaf?_single.mpr found)
      rw [Executable.choose?_flat untyped.1 root stands] at unbound
      contradiction

/-- A flat entry for a root type that has no entry of its own keeps the branch of the type empty, and
it stands unless a branch has come in its place. -/
theorem flat_or_shadowed (gaps : ResolverMap.Filled s folded filled) (plain : filled.Plain)
    (pruned : filled.Pruned) (renewed : ResolverMap.Renewed ResolverMap.Recast filled y)
    {type field : Name} {own : Resolver} (root : s.isRoot type = true)
    (untyped : folded.leaf? [type, field] = none)
    (flat : folded.leaf? [field] = some (.resolver own)) :
    (∃ r, Executable.choose? s y type field = some r ∧ r.unmerged = own.unmerged) ∨
      Shadowed s y type field := by
  have unwritten : filled.resolver? type field = none := by
    by_contra written
    obtain ⟨r, written⟩ := Option.ne_none_iff_exists'.mp written
    refine (gaps.gained type field r ?_ written).2.2 (Or.inr ⟨root, ?_⟩)
    · simp [ResolverMap.resolver?_eq_leaf?, untyped]
    · simp [KeyTree.leaf?_single.mp flat]
  have still_untyped : y.leaf? [type, field] = none := by
    rcases renewed.recast_cases plain [type, field] with ⟨_, after⟩ | ⟨r, _, stands, _⟩
    · exact after
    · simp [ResolverMap.resolver?_eq_leaf?, stands, Leaf.resolver?] at unwritten
  rcases gaps.flat field with same | ⟨sub, branch⟩
  · rw [flat] at same
    obtain ⟨r, stands, recast⟩ := renewed.resolver same
    exact Or.inl ⟨r, Executable.choose?_flat still_untyped root stands, recast⟩
  · exact Or.inr ⟨root, still_untyped, pruned.same_branch renewed.none_iff branch⟩

/-- What is bound without gaps filled is bound with them filled, but for one case. -/
theorem bound_or_shadowed (gaps : ResolverMap.Filled s folded filled) (folded_plain : folded.Plain)
    (plain : filled.Plain) (pruned : filled.Pruned)
    (x_renewed : ResolverMap.Renewed ResolverMap.Recast folded x)
    (y_renewed : ResolverMap.Renewed ResolverMap.Recast filled y)
    {type field : Name} {r : Resolver} (bound : Executable.choose? s x type field = some r) :
    (∃ r', Executable.choose? s y type field = some r' ∧ r'.unmerged = r.unmerged) ∨
      Shadowed s y type field := by
  have typed_before := x_renewed.recast_cases folded_plain [type, field]
  rcases Executable.of_choose? bound with typed | ⟨root, untyped, flat⟩
  · rw [ResolverMap.leaf?_of_resolver? typed] at typed_before
    obtain ⟨_, gone⟩ | ⟨own, _, stands, ⟨⟩, same⟩ := typed_before
    · contradiction
    · have kept := gaps.keeps type field own
        (by simp [ResolverMap.resolver?_eq_leaf?, stands, Leaf.resolver?])
      obtain ⟨r', again, same'⟩ := y_renewed.resolver (ResolverMap.leaf?_of_resolver? kept)
      exact Or.inl ⟨r', Executable.choose?_typed again, Eq.trans same' same.symm⟩
  · have vacant : folded.leaf? [type, field] = none := by
      obtain ⟨before, _⟩ | ⟨_, r₁, _, stands, _⟩ := typed_before
      · exact before
      · simp [ResolverMap.resolver?_eq_leaf?, stands, Leaf.resolver?] at untyped
    have flat_before := x_renewed.recast_cases folded_plain [field]
    rw [flat] at flat_before
    obtain ⟨_, gone⟩ | ⟨own, _, stands, ⟨⟩, same⟩ := flat_before
    · contradiction
    · rcases flat_or_shadowed gaps plain pruned y_renewed root vacant stands with
        ⟨r', chosen, same'⟩ | shadowed
      · exact Or.inl ⟨r', chosen, same'.trans same.symm⟩
      · exact Or.inr shadowed

end Twins

/-- Two merges of the same bundles from the same start, the second of which fills gaps, and their
executable schemas. -/
structure Twins (o : MergeOptions (StateM σ)) (left right x y : Bundle) (eX eY : Executable) :
    Prop where
  left_reached : left.Reached
  right_reached : right.Reached
  merges : ∃ next s,
    (((merge { o with createMissing := false } left right).run next).run s).1.1 = .ok x ∧
    (((merge { o with createMissing := true } left right).run next).run s).1.1 = .ok y
  x_built : ∃ b, x.schema = .ok (eX, b)
  y_built : ∃ b, y.schema = .ok (eY, b)

variable {o : MergeOptions (StateM σ)} {left right x y : Bundle} {eX eY : Executable}

/-- What the two merges have in common, and how their resolvers come from it. -/
theorem Twins.woven (twins : Twins o left right x y eX eY) :
    ∃ folded filled : ResolverMap, folded.Plain ∧ folded.Pruned ∧ filled.Plain ∧ filled.Pruned ∧
      y.map.Pruned ∧ eX.schema = eY.schema ∧ ResolverMap.Filled eY.schema folded filled ∧
      (∀ type field, eY.schema.HasObjectField type field →
        ResolverMap.Occupied eY.schema filled type field) ∧
      ResolverMap.Renewed ResolverMap.Recast folded x.map ∧
      ResolverMap.Renewed ResolverMap.Recast filled y.map := by
  obtain ⟨next, s, x_run, y_run⟩ := twins.merges
  obtain ⟨first, x_map, _, texts, x_stitched, rfl⟩ := merge_steps x_run
  obtain ⟨also, y_map, _, texts', y_stitched, rfl⟩ := merge_steps y_run
  obtain rfl : first = also := Except.ok.inj (texts.symm.trans texts')
  have left_sound := twins.left_reached.sound
  have right_sound := twins.right_reached.sound
  have sound : ∀ s ∈ ((mergedHistory left right).run next).1, s.Sound := by
    obtain ⟨l, r, n, run, _, l_sound, r_sound, _⟩ := mergedHistory_run left_sound right_sound next
    rw [run]
    exact forall_joined left_sound.history right_sound.history l_sound r_sound
  have pruned := pruned_mergedHistory left_sound right_sound twins.left_reached.pruned
    twins.right_reached.pruned next
  generalize ((mergedHistory left right).run next).1 = history at *
  have writes (map : ResolverMap) (type field : Name) (id : Nat) (holds : map.Pruned) :
      (map.setAt field (ResolverMap.entry (.fieldReader id)) [type]).1.Pruned :=
    holds.setAt type field _
  have folded_pruned := Snapshot.pruned_foldAll pruned
  obtain ⟨x_filled, _, x_woven⟩ := weave writes sound folded_pruned x_stitched
  obtain ⟨filled, filled_pruned, woven⟩ := weave writes sound folded_pruned y_stitched
  obtain ⟨s, typed, gaps, occupied⟩ := woven.on rfl
  have folded_plain := Snapshot.plain_foldAll sound
  obtain rfl := x_woven.off rfl
  obtain ⟨_, x_built⟩ := twins.x_built
  obtain ⟨_, y_built⟩ := twins.y_built
  have x_typed := typed_of_schema rfl x_built
  have y_typed := typed_of_schema rfl y_built
  obtain rfl : s = eY.schema := Except.ok.inj (typed.symm.trans y_typed)
  refine ⟨_, filled, folded_plain, folded_pruned, woven.plain, filled_pruned, ?_, ?_, gaps,
    occupied, ?_, ?_⟩
  · rw [map_setResolvers]
    exact woven.pruned filled_pruned
  · exact Except.ok.inj (x_typed.symm.trans y_typed)
  · rw [map_setResolvers]
    exact x_woven.renewed
  · rw [map_setResolvers]
    exact woven.renewed

/-- Filling gaps leaves a field of an object unbound if and only if the field is one of a root type,
has no entry in the branch of its type and has the name of a branch; only such a field can lose the
resolver that it has when gaps are not filled. Such a branch stands there without gaps being filled,
or it is that of an object type. -/
theorem filling_binds (twins : Twins o left right x y eX eY) :
    (∀ type field, eY.schema.HasObjectField type field →
      (eY.resolver? type field = none ↔ Shadowed eY.schema y.map type field)) ∧
    (∀ type field r, eX.schema.HasField type field → eX.resolver? type field = some r →
      (∃ r', eY.resolver? type field = some r' ∧ r'.unmerged = r.unmerged) ∨
        Shadowed eY.schema y.map type field) ∧
    ∀ type field, Shadowed eY.schema y.map type field →
      (∃ sub, x.map.get? field = some (.branch sub)) ∨
        ∃ inner, eY.schema.HasObjectField field inner := by
  obtain ⟨folded, filled, folded_plain, folded_pruned, plain, pruned, y_pruned, schemas, gaps,
    occupied, x_renewed, y_renewed⟩ := twins.woven
  obtain ⟨_, x_built⟩ := twins.x_built
  obtain ⟨_, y_built⟩ := twins.y_built
  have x_reached : x.Reached := by
    obtain ⟨next, s, run, _⟩ := twins.merges
    exact twins.left_reached.merge twins.right_reached ⟨s, run⟩
  have y_reached : y.Reached := by
    obtain ⟨next, s, _, run⟩ := twins.merges
    exact twins.left_reached.merge twins.right_reached ⟨s, run⟩
  have x_binds := (x_reached.sound.schema x_built).1.binds
  have y_binds := (y_reached.sound.schema y_built).1.binds
  refine ⟨fun type field stands => ?_, fun type field r stands bound => ?_,
    fun type field shadowed => ?_⟩
  · rw [y_binds.at_field type field stands.hasField]
    constructor
    · intro unbound
      exact shadowed_of_unbound plain pruned y_renewed (occupied type field stands) unbound
    · intro shadowed
      exact shadowed.unbound
  · have chosen := x_binds.from_map type field r bound
    rw [schemas] at chosen stands
    rw [y_binds.at_field type field stands]
    exact bound_or_shadowed gaps folded_plain plain pruned x_renewed y_renewed chosen
  · obtain ⟨sub, branch⟩ := shadowed.branch
    obtain ⟨inner, before⟩ := y_pruned.same_branch (fun path => (y_renewed.none_iff path).symm) branch
    rcases gaps.origin field inner before with ⟨sub', stands⟩ | place
    · exact Or.inl (folded_pruned.same_branch x_renewed.none_iff stands)
    · exact Or.inr place

/-- Two such merges, found by running them. -/
theorem twins_of_run {left right : Bundle} (left_reached : left.Reached)
    (right_reached : right.Reached) (p : Bundle → Executable → Executable → Bool)
    (passes : ((((merge { plainOptions with createMissing := false } left right).run 2).run
        ()).1.1.toOption.any fun x =>
      (((merge { plainOptions with createMissing := true } left right).run 2).run
        ()).1.1.toOption.any fun y =>
      x.schema.toOption.any fun eX => y.schema.toOption.any fun eY => p y eX.1 eY.1) = true) :
    ∃ x y eX eY, Twins plainOptions left right x y eX eY ∧ p y eX eY = true := by
  obtain ⟨x, x_run, passes⟩ := ok_of_any passes
  obtain ⟨y, y_run, passes⟩ := ok_of_any passes
  obtain ⟨⟨eX, x'⟩, x_built, passes⟩ := ok_of_any passes
  obtain ⟨⟨eY, y'⟩, y_built, passes⟩ := ok_of_any passes
  exact ⟨x, y, eX, eY, ⟨left_reached, right_reached, ⟨2, (), x_run, y_run⟩, ⟨x', x_built⟩, y',
    y_built⟩, passes⟩

/-- A flat entry of a root type stands, and a field of the root type with the name of an object type
is left without a resolver. -/
theorem filling_binds_flat :
    ∃ (left right x y : Bundle) (eX eY : Executable), Twins plainOptions left right x y eX eY ∧
      (∃ r r', eX.resolver? "Query" "a" = some r ∧ eY.resolver? "Query" "a" = some r' ∧
        r'.unmerged = r.unmerged) ∧
      eY.schema.HasObjectField "Query" "P" ∧ Shadowed eY.schema y.map "Query" "P" ∧
      ((∃ sub, x.map.get? "P" = some (.branch sub)) ∨
        ∃ inner, eY.schema.HasObjectField "P" inner) := by
  let map : ResolverMap := .leaf "a" (.resolver (plainResolver 0)) .nil
  obtain ⟨x, y, eX, eY, twins, passes⟩ := twins_of_run
    (reached_ofText "type P { n: String } type Query { a: String P: P }" map (by decide +kernel) rfl
      (by simp [map, KeyTree.Keyed, KeyTree.keys]) rfl)
    (reached_ofSdl (by decide +kernel : Text.trim "type P { n: String }" = _) rfl)
    (fun y eX eY => decide (eX.schema.HasField "Query" "a") &&
      decide (eY.schema.HasObjectField "Query" "P") && (eX.resolver? "Query" "a").isSome &&
      (y.map.leaf? ["a"]).isSome && (eY.resolver? "Query" "P").isNone)
    (by decide +kernel)
  simp only [Bool.and_eq_true, decide_eq_true_eq, Option.isNone_iff_eq_none,
    Option.isSome_iff_exists] at passes
  obtain ⟨⟨⟨⟨field, object_field⟩, r, bound⟩, l, flat⟩, unbound⟩ := passes
  obtain ⟨gaps, keeps, origin⟩ := filling_binds twins
  have shadowed := (gaps "Query" "P" object_field).mp unbound
  refine ⟨_, _, x, y, eX, eY, twins, ⟨r, ?_⟩, object_field, shadowed, origin _ _ shadowed⟩
  rcases keeps "Query" "a" r field bound with ⟨r', again, same⟩ | ⟨_, _, sub, branch⟩
  · exact ⟨r', bound, again, same⟩
  · rw [KeyTree.leaf?_single, branch] at flat
    cases flat

/-- A field of a root type that is named like an object type can be left without a resolver, and it
can lose the flat one that it has when gaps are not filled. -/
theorem filling_leaves_gaps :
    (¬ ∀ (left right x y : Bundle) (eX eY : Executable) (type field : Name),
      Twins plainOptions left right x y eX eY → eY.schema.HasObjectField type field →
      eY.resolver? type field ≠ none) ∧
    (¬ ∀ (left right x y : Bundle) (eX eY : Executable) (type field : Name) (r : Resolver),
      Twins plainOptions left right x y eX eY → eX.schema.HasField type field →
      eX.resolver? type field = some r →
      ∃ r', eY.resolver? type field = some r' ∧ r'.unmerged = r.unmerged) := by
  constructor
  · intro claim
    obtain ⟨x, y, eX, eY, twins, passes⟩ := twins_of_run
      (reached_ofSdl
        (by decide +kernel : Text.trim "type P { n: String } type Query { P: P }" = _) rfl)
      (reached_ofSdl (by decide +kernel : Text.trim "type P { n: String }" = _) rfl)
      (fun _ _ eY => decide (eY.schema.HasObjectField "Query" "P") &&
        (eY.resolver? "Query" "P").isNone)
      (by decide +kernel)
    simp only [Bool.and_eq_true, decide_eq_true_eq, Option.isNone_iff_eq_none] at passes
    exact claim _ _ _ _ _ _ _ _ twins passes.1 passes.2
  · intro claim
    obtain ⟨x, y, eX, eY, twins, passes⟩ := twins_of_run
      (reached_ofText "type Query { P: P } type P { n: String }"
        (.leaf "P" (.resolver (plainResolver 0)) .nil)
        (by decide +kernel) rfl (by simp [KeyTree.Keyed, KeyTree.keys]) rfl)
      (reached_ofSdl (by decide +kernel : Text.trim "type P { n: String }" = _) rfl)
      (fun _ eX eY => decide (eX.schema.HasField "Query" "P") &&
        (eX.resolver? "Query" "P").isSome && (eY.resolver? "Query" "P").isNone)
      (by decide +kernel)
    simp only [Bool.and_eq_true, decide_eq_true_eq, Option.isNone_iff_eq_none,
      Option.isSome_iff_exists] at passes
    obtain ⟨⟨field, r, bound⟩, unbound⟩ := passes
    obtain ⟨r', rebound, _⟩ := claim _ _ _ _ _ _ _ _ r twins field bound
    cases unbound.symm.trans rebound

end Bundle
end SchemaStitch
