import SchemaStitch.Proofs.Bundle.Sight

/-! What becomes of the resolvers that an owner builds when bundles are merged. They are captured as
they are, but for the injectors that stand outermost, and that is what the resolvers of later merges
run, after the injectors of the merge and inside its layer. -/
namespace SchemaStitch
open Sdl

/-- Drops the arguments of a call. -/
def Injector.dropArguments : Injector := fun call => return { call with args := [] }

/-- Fails on arguments. -/
def Resolver.refuseArguments : Handler := fun call =>
  return if call.args.isEmpty then .ok .null else .error "arguments"

namespace Resolver

/-- Whether a resolver carries one that its owner has built: that is what is left of it when the layers
of merges are taken off. -/
def Carries (r leaf : Resolver) : Prop := leaf.unmerged = r.uninjected

/-- Whether invoking a resolver is invoking another one, after injectors, inside a layer of a merge that
shows a schema: null is accumulated, the schema is in its slot, and a failure is told as that of the
second entry of the layer. -/
def Layered (injectors : List Injector) (schema : Schema) (r leaf : Resolver) : Prop :=
  ∃ layer, leaf.composer? = some layer ∧ layer.mergeLayer = true ∧ ∀ call s,
    (leaf.invoke call).run s =
      let step : Call := { call with accumulated := some .null }
      let ran := (r.invokeAfter injectors step).run
        ((layerShape injectors r).shown schema call s)
      (ran.1.mapError (.entry · layer 1 step), ran.2)

theorem uninjected_cases (r : Resolver) :
    (∃ t injectors inner, r = .injected t injectors inner) ∨ r.uninjected = r := by
  cases r with
  | injected t injectors inner => exact Or.inl ⟨t, injectors, inner, rfl⟩
  | _ => exact Or.inr rfl

section
variable {injectors : List Injector} {r inner : Resolver}
  (around : (injectors = [] ∧ inner = r) ∨ Around injectors r inner)
include around

theorem injectionShape_inner : Composer.injectionShape inner = layerShape injectors r := by
  rcases around with ⟨rfl, rfl⟩ | ⟨some_injector, n, rfl⟩
  · rfl
  · rw [layerShape, some_injector]
    rfl

theorem invoke_inner : inner.invoke = r.invokeAfter injectors := by
  rcases around with ⟨rfl, rfl⟩ | ⟨_, n, rfl⟩
  · exact (invokeAfter_nil _).symm
  · exact invoke_injected _ _ _

theorem unmerged_inner : inner.unmerged = r.unmerged := by
  rcases around with ⟨rfl, rfl⟩ | ⟨_, n, rfl⟩ <;> rfl

theorem layered_seeing (schema : Schema) (n : Nat) :
    Layered injectors schema r (inner.seeing schema n) := by
  refine ⟨inner.layer schema n, rfl, rfl, fun call s => ?_⟩
  rw [run_seeing, injectionShape_inner around, invoke_inner around]

end

end Resolver

namespace Bundle

theorem leaf?_capture {b : Bundle} (reached : b.Reached) {path : List String} {leaf : Resolver}
    (found : b.map.leaf? path = some (.resolver leaf)) (n : Nat) :
    ((Snapshot.capture b).run n).1.resolvers.leaf? path = some (.resolver leaf.unmerged) := by
  obtain ⟨s, n', run, _, _, _, stripped⟩ := reached.sound.capture (Nat.le_refl n)
  obtain ⟨_, stands, rfl⟩ := stripped.resolver found
  rwa [run]

variable {σ : Type} {o : MergeOptions (StateM σ)} {left right merged : Bundle} {next : Nat}
  {path : List String} {leaf : Resolver}

theorem invoke_unlayered (left_reached : left.Reached) (right_reached : right.Reached)
    (merges : MergesTo o left right next merged) (off : o.injectSchema = false)
    (found : merged.map.leaf? path = some (.resolver leaf)) :
    leaf.invoke = leaf.unmerged.invokeAfter o.injectors := by
  obtain ⟨l, r, joined⟩ := of_merge left_reached.sound right_reached.sound merges
  obtain ⟨own, inner, bare, around, ⟨_, same⟩ | ⟨on, _⟩⟩ := joined.stitched.leaf_cases found
  · cases same
    rw [Resolver.unmerged_inner around, bare]
    exact Resolver.invoke_inner around
  · simp [off] at on

theorem layered_merged (left_reached : left.Reached) (right_reached : right.Reached)
    (merges : MergesTo o left right next merged) (on : o.injectSchema = true)
    (found : merged.map.leaf? path = some (.resolver leaf)) :
    ∃ schema, merged.typeSchema = .ok schema ∧
      Resolver.Layered o.injectors schema leaf.unmerged leaf := by
  obtain ⟨l, r, joined⟩ := of_merge left_reached.sound right_reached.sound merges
  obtain ⟨schema, own, inner, n, typed, _, bare, rfl, around⟩ := joined.stitched.layers on found
  refine ⟨schema, typed, ?_⟩
  rw [Resolver.unmerged_seeing, Resolver.unmerged_inner around, bare]
  exact Resolver.layered_seeing around schema n

/-- A resolver that its owner has built is captured without its outermost injectors, and as it is if
there are none; and so it is again from a merge whose resolver carries it. That resolver runs it after
the injectors of the merge, inside a layer that shows the merged schema if the options ask for one. -/
theorem owned_survives {r : Resolver} (own : r.Owned) :
    r.Carries r ∧ r.invoke = r.uninjected.invokeAfter r.outerInjectors ∧
      ((∃ t injectors inner, r = .injected t injectors inner) ∨ r.uninjected = r) ∧
      (∀ (b : Bundle) (path : List String) (leaf : Resolver) (n : Nat), b.Reached →
        b.map.leaf? path = some (.resolver leaf) → r.Carries leaf →
        ((Snapshot.capture b).run n).1.resolvers.leaf? path = some (.resolver r.uninjected)) ∧
      ∀ (σ : Type) (o : MergeOptions (StateM σ)) (left right merged : Bundle) (next : Nat)
        (path : List String) (leaf : Resolver), left.Reached → right.Reached →
        MergesTo o left right next merged → merged.map.leaf? path = some (.resolver leaf) →
        r.Carries leaf →
        (o.injectSchema = false → leaf.invoke = r.uninjected.invokeAfter o.injectors) ∧
        (o.injectSchema = true → ∃ schema, merged.typeSchema = .ok schema ∧
          Resolver.Layered o.injectors schema r.uninjected leaf) := by
  refine ⟨own.unmerged, r.invoke_eq, r.uninjected_cases, ?_, ?_⟩
  · intro b path leaf n reached found carries
    rw [← carries]
    exact leaf?_capture reached found n
  · intro σ o left right merged next path leaf left_reached right_reached merges found carries
    rw [← carries]
    exact ⟨fun off => invoke_unlayered left_reached right_reached merges off found,
      fun on => layered_merged left_reached right_reached merges on found⟩

theorem owned_survives_guarded :
    ∃ (r leaf : Resolver) (left right merged : Bundle) (o : MergeOptions (StateM Unit))
      (schema : Schema), r.Owned ∧ left.Reached ∧ right.Reached ∧
      left.map.leaf? ["Query", "a"] = some (.resolver r) ∧
      ((Snapshot.capture left).run 4).1.resolvers.leaf? ["Query", "a"] = some (.resolver r) ∧
      MergesTo o left right 4 merged ∧ o.injectSchema = true ∧ o.injectors.length = 1 ∧
      merged.map.leaf? ["Query", "a"] = some (.resolver leaf) ∧ r.Carries leaf ∧
      merged.typeSchema = .ok schema ∧ Resolver.Layered o.injectors schema r leaf := by
  let guard : Resolver := .injected ⟨1, .info, none⟩ [Injector.dropArguments] (plainResolver 0)
  let r : Resolver := .composed ⟨3, .info, none⟩
    (Composer.wrap ((plainResolver 2).withShape .context) [guard] []
      (some fun results => return .ok results))
  let options : MergeOptions (StateM Unit) := ⟨.keepRight, [Injector.dropArguments], true, false⟩
  let map : ResolverMap := .branch "Query" (.leaf "a" (.resolver r) .nil) .nil
  have own : r.Owned := by
    refine .composed _ (Composer.owned_wrap (.mapTag (.function _ _) _) (fun s member => ?_)
      (by simp) _)
    rw [List.mem_singleton.mp member]
    exact .injected _ _ (.function _ _)
  have left_reached : (ofText "type Query { a: Int }" map).Reached :=
    reached_ofText _ _ (by decide +kernel) rfl (by simp [map, KeyTree.Keyed, KeyTree.keys]) rfl
  have right_reached : (ofSdl "type P { n: Int }").Reached :=
    reached_ofSdl (by decide +kernel) rfl
  have run : (((merge options (ofText "type Query { a: Int }" map)
      (ofSdl "type P { n: Int }")).run 4).run ()).1.1.toOption.any (fun _ => true) = true := by
    decide +kernel
  obtain ⟨merged, merges, _⟩ := ok_of_any run
  obtain ⟨l, r', joined⟩ := of_merge left_reached.sound right_reached.sound ⟨(), merges⟩
  have stands : map.leaf? ["Query", "a"] = some (.resolver r) := rfl
  obtain ⟨leaf, found, carries⟩ := joined.left_stands rfl stands fun _ _ => KeyTree.leaf?_nil _
  obtain ⟨_, _, _, captured, survives⟩ := owned_survives own
  obtain ⟨schema, typed, layered⟩ := (survives Unit options _ _ merged 4 _ leaf left_reached
    right_reached ⟨(), merges⟩ found (carries.trans own.unmerged)).2 rfl
  exact ⟨r, leaf, _, _, merged, options, schema, own, left_reached, right_reached, rfl,
    captured _ _ r 4 left_reached rfl own.unmerged, ⟨(), merges⟩, rfl, rfl, found, carries, typed,
    layered⟩

/-- Injectors that an owner puts around a whole resolver are taken for layers of a merge, and those of
a merge adjust the calls of what the owner has built. -/
theorem injectors_make_a_difference :
    (¬ ∀ (b : Bundle) (path : List String) (r : Resolver), b.Reached → r.Owned →
      b.map.leaf? path = some (.resolver r) →
      ∃ stored, ((Snapshot.capture b).run 2).1.resolvers.leaf? path = some (.resolver stored) ∧
        stored.invoke = r.invoke) ∧
    (¬ ∀ (left right merged : Bundle) (o : MergeOptions (StateM Unit)) (path : List String)
      (r leaf : Resolver), left.Reached → right.Reached → MergesTo o left right 1 merged →
      o.injectSchema = false → r.Owned → r.uninjected = r →
      left.map.leaf? path = some (.resolver r) →
      merged.map.leaf? path = some (.resolver leaf) → r.Carries leaf → leaf.invoke = r.invoke) := by
  let refusing : Resolver := .function ⟨0, .info, none⟩ Resolver.refuseArguments
  let call : Call := { (default : Call) with args := [("x", .null)] }
  have differ : refusing.invoke ≠ refusing.invokeAfter [Injector.dropArguments] := fun same => by
    have answers := congrArg
      (fun invoke : Call → Act (Except Failure Json) =>
        ((invoke call).run Store.empty).1.toOption.isSome) same
    exact Bool.noConfusion answers
  let map (r : Resolver) : ResolverMap := .branch "Query" (.leaf "a" (.resolver r) .nil) .nil
  have stands (r : Resolver) : (map r).leaf? ["Query", "a"] = some (.resolver r) := rfl
  have reached (r : Resolver) : (ofText "type Query { a: Int }" (map r)).Reached :=
    reached_ofText _ _ (by decide +kernel) rfl (by simp [map, KeyTree.Keyed, KeyTree.keys]) rfl
  constructor
  · intro claim
    let r : Resolver := .injected ⟨1, .info, none⟩ [Injector.dropArguments] refusing
    obtain ⟨stored, captured, same⟩ :=
      claim _ ["Query", "a"] r (reached r) (.injected _ _ (.function _ _)) (stands r)
    rw [leaf?_capture (reached r) (stands r) 2] at captured
    cases captured
    exact differ (same.trans (Resolver.invoke_injected _ _ _))
  · intro claim
    let options : MergeOptions (StateM Unit) := ⟨.keepRight, [Injector.dropArguments], false, false⟩
    have right_reached : (ofSdl "type P { n: Int }").Reached :=
      reached_ofSdl (by decide +kernel) rfl
    have run : (((merge options (ofText "type Query { a: Int }" (map refusing))
        (ofSdl "type P { n: Int }")).run 1).run ()).1.1.toOption.any (fun _ => true) = true := by
      decide +kernel
    obtain ⟨merged, merges, _⟩ := ok_of_any run
    obtain ⟨l, r', joined⟩ := of_merge (reached refusing).sound right_reached.sound ⟨(), merges⟩
    obtain ⟨leaf, found, carries⟩ :=
      joined.left_stands rfl (stands refusing) fun _ _ => KeyTree.leaf?_nil _
    have same := claim _ _ merged options ["Query", "a"] refusing leaf (reached refusing)
      right_reached ⟨(), merges⟩ rfl (.function _ _) rfl (stands refusing) found carries
    have unlayered := invoke_unlayered (reached refusing) right_reached ⟨(), merges⟩ rfl found
    rw [carries] at unlayered
    exact differ (same.symm.trans unlayered)

end Bundle
end SchemaStitch
