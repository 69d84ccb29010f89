import SchemaStitch.Proofs.Bundle.Merging
import SchemaStitch.Proofs.Resolver.Owned
import SchemaStitch.Proofs.Resolver.Runs

/-! What the resolvers of a merge see. The layer that a merge puts outermost writes the merged schema
before anything else runs, so a function finds it as long as nothing between the layer and the
function takes it away and the layer writes where the function looks. -/
namespace SchemaStitch
open Sdl

namespace Resolver

variable {schema : Schema}

theorem schemaAt_shown (shape : Shape) (schema : Schema) (call : Call) (s : Store) :
    shape.schemaAt call (shape.shown schema call s) = some schema := by
  cases shape with
  | info => exact congrArg Slot.schema (if_pos rfl)
  | context => exact congrArg (fun d : ContextData => d.slot.schema) (if_pos rfl)

/-- The runs of a resolver that sees a schema are the writing of the schema and runs of the resolver
inside, which begin with the schema found. -/
theorem Runs.of_seeing {r : Resolver} {n : Nat} {call called : Call} {s s' : Store} {f : Tag}
    (runs : Runs (r.seeing schema n) call s f called s') :
    f.id = n ∨ ∃ begun s₁, (Composer.injectionShape r).schemaAt begun s₁ = some schema ∧
      Runs r begun s₁ f called s' := by
  cases runs with
  | @entry _ _ c before after e _ _ _ s₁ _ results order earlier inside =>
    -- The layer has two entries: the function that writes the schema, and the resolver.
    match before with
    | [] =>
      left
      obtain ⟨rfl, _⟩ := List.cons.inj order
      cases inside
      rfl
    | [first] =>
      right
      obtain ⟨rfl, later⟩ := List.cons.inj order
      obtain ⟨rfl, _⟩ := List.cons.inj later
      refine ⟨_, s₁, ?_, inside⟩
      have finds := schemaAt_shown (Composer.injectionShape r) schema
        { call with accumulated := none } s
      rw [invokeAll, run_bind, invoke, run_bind, Composer.run_putSchema] at earlier
      obtain rfl : Shape.shown _ schema _ s = s₁ := congrArg Prod.snd earlier
      rwa [schemaAt_accumulated] at finds ⊢
    | _ :: _ :: rest => simp at order

/-- A resolver that sees a schema runs the resolver inside. -/
theorem Runs.seeing (schema : Schema) (r : Resolver) (n : Nat) (call : Call) (s : Store) :
    ∃ results s₁, ∀ f called s', Runs r { call with accumulated := results } s₁ f called s' →
      Runs (r.seeing schema n) call s f called s' := by
  refine ⟨some .null, (Composer.injectionShape r).shown schema call s, fun f called s' runs => ?_⟩
  refine @Runs.entry _ _ _ [_] [] _ _ _ _ _ _ _ rfl ?_ runs
  rw [invokeAll, run_bind, invoke, run_bind, Composer.run_putSchema]
  rfl

/-- The shape that decides where the layer of a merge writes, for a resolver that is put into it with
injectors around it. -/
def layerShape (injectors : List Injector) (r : Resolver) : Shape :=
  if injectors.isEmpty then Composer.injectionShape r else r.shape

/-- Whether what stands around the base of a resolver has the shape of what it was built around. A
composition whose anchor was lost is its own base. -/
def KeepsShape : Resolver → Prop
  | .function _ _ => True
  | .injected t _ inner => t.shape = inner.shape ∧ inner.KeepsShape
  | .composed t ⟨_, some anchor, _, _⟩ => t.shape = anchor.shape ∧ anchor.KeepsShape
  | .composed _ ⟨_, none, _, _⟩ => True

theorem KeepsShape.base {r : Resolver} (keeps : r.KeepsShape) : r.shape = r.base.shape := by
  fun_induction Resolver.base r with
  | case1 t h => rfl
  | case2 t injectors inner ih => exact keeps.1.trans (ih keeps.2)
  | case3 t order anchor patcher layer ih => exact keeps.1.trans (ih keeps.2)
  | case4 t order patcher layer => rfl

/-- Where no shape was changed on the way to the base, the layer of a merge writes where the base
looks. -/
theorem KeepsShape.layer {r : Resolver} (keeps : r.KeepsShape) (injectors : List Injector) :
    layerShape injectors r = r.base.shape := by
  rw [layerShape]
  split
  · -- Without injectors the layer asks the anchor of a composition and not the composition.
    match r, keeps with
    | .composed _ ⟨_, some _, _, _⟩, keeps => exact keeps.2.base
    | .function _ _, _ | .composed _ ⟨_, none, _, _⟩, _ => rfl
    | .injected _ _ _, keeps => exact keeps.base
  · exact keeps.base

theorem KeepsShape.unmerged {r : Resolver} (keeps : r.KeepsShape) : r.unmerged.KeepsShape := by
  fun_induction Resolver.unmerged r with
  | case1 t h => exact keeps
  | case2 t injectors inner ih => exact ih keeps.2
  | case3 t order anchor patcher ih => exact ih keeps.2
  | case4 t order patcher => exact keeps
  | case5 t order anchor patcher => exact keeps

theorem KeepsShape.withInjectors {r : Resolver} (keeps : r.KeepsShape) (injectors : List Injector)
    (n : Nat) : ((r.withInjectors injectors : Supply Resolver).run n).1.KeepsShape := by
  rw [Resolver.withInjectors]
  split
  · exact keeps
  · exact ⟨rfl, keeps⟩

theorem KeepsShape.ofComposer {c : Composer} {anchor : Resolver} (around : c.anchor = some anchor)
    (keeps : anchor.KeepsShape) (n : Nat) :
    ((Resolver.ofComposer c : Supply Resolver).run n).1.KeepsShape := by
  obtain ⟨order, _, patcher, layer⟩ := c
  cases around
  exact ⟨rfl, keeps⟩

/-- Whether a function inside a resolver finds the schema that a layer around the resolver and its
injectors writes: the layer writes where the function looks, and neither the injectors nor the
resolver's own take it away before the function runs. -/
structure Sighted (injectors : List Injector) (schema : Schema) (f : Tag) (r : Resolver) : Prop where
  shape : layerShape injectors r = f.shape
  keep : ∀ inject ∈ injectors, Injector.Keeps f.shape schema inject
  clear : Clear f.shape schema f.id r

theorem KeepsShape.sighted {injectors : List Injector} {f : Tag} {h : Handler} {r : Resolver}
    (keeps : r.KeepsShape) (base : r.base = .function f h)
    (keep : ∀ inject ∈ injectors, Injector.Keeps f.shape schema inject)
    (clear : Clear f.shape schema f.id r) : r.Sighted injectors schema f := by
  refine ⟨?_, keep, clear⟩
  rw [keeps.layer, base]
  rfl

end Resolver

namespace Bundle

variable {σ : Type} {o : MergeOptions (StateM σ)} {left right merged : Bundle} {next : Nat}

/-- Every resolver of a merge that shows its schema is one that nothing was put around, with the
injectors of the options and then the layer around it. -/
theorem Stitched.layers {m : Type → Type} {o : MergeOptions m} {merged : Bundle}
    {history : List Snapshot} {first : Nat} {out : ResolverMap}
    (stitched : Stitched o merged history first out) (on : o.injectSchema = true)
    {path : List String} {leaf : Resolver} (found : out.leaf? path = some (.resolver leaf)) :
    ∃ s r inner n, merged.typeSchema = .ok s ∧ first ≤ n ∧ r.unmerged = r ∧
      leaf = Resolver.seeing s n inner ∧
      ((o.injectors = [] ∧ inner = r) ∨ Resolver.Around o.injectors r inner) := by
  obtain ⟨r, inner, bare, around, ⟨off, _⟩ | ⟨_, s, n, typed, drawn, same⟩⟩ :=
    stitched.leaf_cases found
  · simp [off] at on
  · cases same
    exact ⟨s, r, inner, n, typed, drawn, bare, rfl, around⟩

/-- In a merge that shows its schema, every run of the base function of a resolver finds that schema
where the function looks, if the function is older than the merge and nothing obstructs its sight. -/
theorem merged_schema_found (left_reached : left.Reached) (right_reached : right.Reached)
    (merges : MergesTo o left right next merged) (on : o.injectSchema = true) {path : List String}
    {leaf : Resolver} (found : merged.map.leaf? path = some (.resolver leaf)) :
    ∃ schema, merged.typeSchema = .ok schema ∧ ∀ (f : Tag) (h : Handler),
      leaf.unmerged.base = .function f h → f.id < next →
      leaf.unmerged.Sighted o.injectors schema f → ∀ call s g called s',
      leaf.Runs call s g called s' → g.id = f.id → f.shape.schemaAt called s' = some schema := by
  obtain ⟨l, r, joined⟩ := of_merge left_reached.sound right_reached.sound merges
  obtain ⟨schema, own, inner, n, typed, drawn, bare, rfl, around⟩ := joined.stitched.layers on found
  refine ⟨schema, typed, ?_⟩
  intro f h _ older sighted call s g called s' runs same
  rw [← same] at older
  rcases runs.of_seeing with layer | ⟨begun, s₁, finds, runs⟩
  · omega
  have clear := sighted.clear
  have shape := sighted.shape
  rw [Resolver.unmerged_seeing, ← same] at clear
  rw [Resolver.unmerged_seeing, Resolver.layerShape] at shape
  rcases around with ⟨without, rfl⟩ | ⟨some_injector, k, rfl⟩
  · rw [without, List.isEmpty_nil, if_pos rfl, bare] at shape
    rw [bare] at clear
    rw [shape] at finds
    exact runs.finds clear finds
  · have inside : (Resolver.injected { own.tag with id := k } o.injectors own).unmerged = own := bare
    rw [some_injector, if_neg (by simp), inside] at shape
    rw [inside] at clear
    have writes : Composer.injectionShape (.injected { own.tag with id := k } o.injectors own) =
        f.shape := shape
    rw [writes] at finds
    exact runs.finds (.injected _ sighted.keep clear) finds

/-- The resolver that a merge makes of one of the left side. -/
theorem seeing_of_left (left_reached : left.Reached) (right_reached : right.Reached)
    (merges : MergesTo o left right next merged) (on : o.injectSchema = true)
    (off : o.createMissing = false) (path : List String) (own : Resolver)
    (found : left.map.leaf? path = some (.resolver own)) (free : right.map.Free path) :
    ∃ schema n inner, merged.typeSchema = .ok schema ∧
      merged.map.leaf? path = some (.resolver (inner.seeing schema n)) ∧
      ((o.injectors = [] ∧ inner = own.unmerged) ∨
        Resolver.Around o.injectors own.unmerged inner) := by
  obtain ⟨l, r, joined⟩ := of_merge left_reached.sound right_reached.sound merges
  obtain ⟨leaf, stands, same⟩ := joined.left_stands off found free
  obtain ⟨schema, r, inner, n, typed, _, bare, rfl, around⟩ := joined.stitched.layers on stands
  have origin : r = own.unmerged := by
    rw [← same, Resolver.unmerged_seeing]
    rcases around with ⟨_, rfl⟩ | ⟨_, _, rfl⟩
    · exact bare.symm
    · exact bare.symm
  subst r
  exact ⟨schema, n, inner, typed, stands, around⟩

/-- A function finds the merged schema behind an injector that changes arguments. -/
theorem merged_schema_found_behind_arguments :
    ∃ (left right merged : Bundle) (o : MergeOptions (StateM Unit)) (schema : Schema)
      (leaf : Resolver) (f : Tag) (h : Handler), left.Reached ∧ right.Reached ∧
      MergesTo o left right 1 merged ∧ o.injectSchema = true ∧ o.injectors.length = 1 ∧
      merged.map.leaf? ["Query", "a"] = some (.resolver leaf) ∧ merged.typeSchema = .ok schema ∧
      leaf.unmerged.base = .function f h ∧ f.id < 1 ∧ leaf.unmerged.Sighted o.injectors schema f ∧
      ∀ call s, (∃ called s', leaf.Runs call s f called s') ∧ ∀ called s',
        leaf.Runs call s f called s' → f.shape.schemaAt called s' = some schema := by
  let dropArguments : Injector := fun call => return { call with args := [] }
  let options : MergeOptions (StateM Unit) := ⟨.keepRight, [dropArguments], true, false⟩
  let map : ResolverMap := .branch "Query" (.leaf "a" (.resolver (plainResolver 0)) .nil) .nil
  have left_reached : (ofText "type Query { a: Int }" map).Reached :=
    reached_ofText _ _ (by decide +kernel) rfl (by simp [map, KeyTree.Keyed, KeyTree.keys]) rfl
  have right_reached : (ofSdl "type P { n: Int }").Reached :=
    reached_ofSdl (by decide +kernel) rfl
  have run : (((merge options (ofText "type Query { a: Int }" map)
      (ofSdl "type P { n: Int }")).run 1).run ()).1.1.toOption.any (fun _ => true) = true := by
    decide +kernel
  obtain ⟨merged, merges, _⟩ := ok_of_any run
  obtain ⟨schema, n, inner, typed, stands, around⟩ := seeing_of_left (o := options) left_reached
    right_reached ⟨(), merges⟩ rfl rfl ["Query", "a"] (plainResolver 0) rfl
    (fun _ _ => KeyTree.leaf?_nil _)
  rcases around with ⟨without, _⟩ | ⟨_, k, rfl⟩
  · cases without
  have keeps : Injector.Keeps .info schema dropArguments := fun _ _ finds => finds
  have sighted : (plainResolver 0).Sighted options.injectors schema ⟨0, .info, none⟩ :=
    Resolver.KeepsShape.sighted trivial rfl (by simpa [options] using keeps) (.function _ _)
  obtain ⟨schema', typed', sees⟩ :=
    merged_schema_found left_reached right_reached ⟨(), merges⟩ rfl stands
  cases typed.symm.trans typed'
  refine ⟨_, _, merged, options, schema, _, ⟨0, .info, none⟩, _, left_reached, right_reached,
    ⟨(), merges⟩, rfl, rfl, stands, typed, rfl, Nat.zero_lt_one, sighted, fun call s => ⟨?_, ?_⟩⟩
  · obtain ⟨results, s₁, runs⟩ := Resolver.Runs.seeing schema
      (.injected { (plainResolver 0).tag with id := k } options.injectors (plainResolver 0)) n call s
    exact ⟨_, _, runs _ _ _ (.injected rfl (.function _ _ _ _))⟩
  · intro called s' runs
    exact sees _ _ rfl Nat.zero_lt_one sighted call s _ called s' runs rfl

/-- An injector that gives a call a context of its own hides the merged schema from a function that
looks in the context. -/
theorem fresh_context_hides_schema :
    ¬ ∀ (left right merged : Bundle) (o : MergeOptions (StateM Unit)) (schema : Schema)
      (path : List String) (leaf : Resolver) (f g : Tag) (h : Handler) (call called : Call)
      (s s' : Store), left.Reached → right.Reached → MergesTo o left right 1 merged →
      o.injectSchema = true → merged.map.leaf? path = some (.resolver leaf) →
      merged.typeSchema = .ok schema → leaf.unmerged.base = .function f h → f.id < 1 →
      leaf.Runs call s g called s' → g.id = f.id → f.shape.schemaAt called s' = some schema := by
  intro claim
  let freshContext : Injector := fun call => return { call with context := ← ContextId.new }
  let options : MergeOptions (StateM Unit) := ⟨.keepRight, [freshContext], true, false⟩
  let own : Resolver := (plainResolver 0).withShape .context
  let map : ResolverMap := .branch "Query" (.leaf "a" (.resolver own) .nil) .nil
  have left_reached : (ofText "type Query { a: Int }" map).Reached :=
    reached_ofText _ _ (by decide +kernel) rfl (by simp [map, KeyTree.Keyed, KeyTree.keys]) rfl
  have right_reached : (ofSdl "type P { n: Int }").Reached :=
    reached_ofSdl (by decide +kernel) rfl
  have run : (((merge options (ofText "type Query { a: Int }" map)
      (ofSdl "type P { n: Int }")).run 1).run ()).1.1.toOption.any (fun _ => true) = true := by
    decide +kernel
  obtain ⟨merged, merges, _⟩ := ok_of_any run
  obtain ⟨schema, n, inner, typed, stands, around⟩ := seeing_of_left (o := options) left_reached
    right_reached ⟨(), merges⟩ rfl rfl ["Query", "a"] own rfl
    (fun _ _ => KeyTree.leaf?_nil _)
  rcases around with ⟨without, _⟩ | ⟨_, k, rfl⟩
  · cases without
  obtain ⟨results, s₁, runs⟩ := Resolver.Runs.seeing schema
    (.injected { own.tag with id := k } options.injectors own) n default Store.empty
  have finds := claim _ _ merged options schema _ _ ⟨0, .context, none⟩ ⟨0, .context, none⟩ _ default
    _ Store.empty _ left_reached right_reached ⟨(), merges⟩ rfl stands typed rfl Nat.zero_lt_one
    (runs _ _ _ (.injected rfl (.function _ _ _ _))) rfl
  have empty : Shape.context.schemaAt
      ((freshContext { (default : Call) with accumulated := results }).run s₁).1
      ((freshContext { (default : Call) with accumulated := results }).run s₁).2 = none :=
    congrArg (fun d : ContextData => d.slot.schema) (if_pos rfl)
  exact absurd (finds.symm.trans empty) (by simp)

end Bundle
end SchemaStitch
