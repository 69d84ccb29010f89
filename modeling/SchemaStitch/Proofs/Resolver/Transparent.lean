import SchemaStitch.Proofs.Resolver.Owned

/-! The layer of a merge is transparent: apart from what it writes into one slot, an invocation through
it is one invocation of the resolver inside, with the same value. -/
namespace SchemaStitch

namespace Store

@[simp] theorem slots_setSlot (s : Store) (i : SlotId) (d : Slot) : (s.setSlot i d).slots i = d :=
  if_pos rfl

@[simp] theorem setSlot_setSlot (s : Store) (i : SlotId) (d d' : Slot) :
    (s.setSlot i d).setSlot i d' = s.setSlot i d' := by
  have same : (fun x => if x = i then d' else if x = i then d else s.slots x) =
      fun x => if x = i then d' else s.slots x := by
    funext x
    by_cases here : x = i <;> simp [here]
  exact congrArg (fun slots => { s with slots }) same

@[simp] theorem contexts_setContext (s : Store) (c : ContextId) (d : ContextData) :
    (s.setContext c d).contexts c = d :=
  if_pos rfl

@[simp] theorem setContext_setContext (s : Store) (c : ContextId) (d d' : ContextData) :
    (s.setContext c d).setContext c d' = s.setContext c d' := by
  have same : (fun x => if x = c then d' else if x = c then d else s.contexts x) =
      fun x => if x = c then d' else s.contexts x := by
    funext x
    by_cases here : x = c <;> simp [here]
  exact congrArg (fun contexts => { s with contexts }) same

end Store

/-- A slot after a schema was written to it, and a root value if there is one. -/
def Slot.write (schema : Schema) (root : Option Json) (slot : Slot) : Slot :=
  ⟨some schema, root.or slot.rootValue⟩

/-- Whether two stores differ in one slot only, into which a schema was written, and a root value if
there is one. Which slot it is depends on the shape: that of the info of a call or that of its
context. -/
structure Writes (shape : Shape) (schema : Schema) (root : Option Json) (call : Call)
    (before after : Store) : Prop where
  slots (i : SlotId) : after.slots i =
    if shape = .info ∧ i = call.info.slot then (before.slots i).write schema root
    else before.slots i
  contextSlots (x : ContextId) : (after.contexts x).slot =
    if shape = .context ∧ x = call.context then (before.contexts x).slot.write schema root
    else (before.contexts x).slot
  entries (x : ContextId) : (after.contexts x).entries = (before.contexts x).entries
  next : after.next = before.next

namespace Composer

/-- The store after a schema was written, and a root value if there is one. -/
def written (shape : Shape) (schema : Schema) (root : Option Json) (call : Call) (s : Store) :
    Store :=
  match shape with
  | .info => s.setSlot call.info.slot ((s.slots call.info.slot).write schema root)
  | .context =>
    let d := s.contexts call.context
    s.setContext call.context { d with slot := d.slot.write schema root }

theorem writes_written (shape : Shape) (schema : Schema) (root : Option Json) (call : Call)
    (s : Store) : Writes shape schema root call s (written shape schema root call s) := by
  cases shape with
  | info =>
    refine ⟨fun i => ?_, fun x => ?_, fun x => rfl, rfl⟩
    · by_cases here : i = call.info.slot <;> simp [written, Store.setSlot, here]
    · simp [written, Store.setSlot]
  | context =>
    refine ⟨fun i => ?_, fun x => ?_, fun x => ?_, rfl⟩
    · simp [written, Store.setContext]
    · by_cases here : x = call.context <;> simp [written, Store.setContext, here]
    · by_cases here : x = call.context <;> simp [written, Store.setContext, here]

theorem putSchema_written (shape : Shape) (schema : Schema) (root : Option Json) (call : Call)
    (s : Store) : (putSchema shape schema root call).run s =
      (.ok (call.accumulated.getD .null), written shape schema root call s) := by
  cases root with
  | none => cases shape <;> rfl
  | some v =>
    -- The root value goes into the slot that the schema was just written to.
    cases shape with
    | info =>
      change (_, Store.setSlot (Store.setSlot _ _ _) _ _) = _
      rw [Store.slots_setSlot, Store.setSlot_setSlot]
      rfl
    | context =>
      change (_, Store.setContext (Store.setContext _ _ _) _ _) = _
      rw [Store.contexts_setContext, Store.setContext_setContext]
      rfl

end Composer

namespace Resolver

theorem shape_withInjectors (r : Resolver) (injectors : List Injector) (n : Nat) :
    Composer.injectionShape ((r.withInjectors injectors : Supply Resolver).run n).1 =
      if injectors.isEmpty then Composer.injectionShape r else r.shape := by
  cases injectors <;> rfl

theorem invoke_withInjectors (r : Resolver) (injectors : List Injector) (n : Nat) :
    ((r.withInjectors injectors : Supply Resolver).run n).1.invoke = r.invokeAfter injectors := by
  cases injectors with
  | nil => exact (invokeAfter_nil r).symm
  | cons inject rest => exact invoke_injected _ (inject :: rest) r

/-- An invocation through the layer of a merge writes the schema, and a root value if there is one, into
the slot that the shape says and changes nothing else before it invokes the resolver inside once,
on the same call with null accumulated and after the injectors. It answers the same value, and a
failure is told as that of the second entry on the call that the injectors were given. -/
theorem layer_transparent (r : Resolver) (injectors : List Injector) (schema : Schema)
    (root : Option Json) (n : Nat) (call : Call) (s : Store) :
    ∃ c n' s₁,
      (do Composer.injectSchema (← r.withInjectors injectors) schema root none :
        Supply Composer).run n = (c, n') ∧
      Writes (if injectors.isEmpty then Composer.injectionShape r else r.shape) schema root call
        s s₁ ∧
      (c.run call).run s =
        let step : Call := { call with accumulated := some .null }
        let adjusted :=
          (injectors.foldlM (fun call inject => inject call) step : Act Call).run s₁
        let ran := (r.invoke adjusted.1).run adjusted.2
        (ran.1.mapError (.entry · c 1 step), ran.2) := by
  have inside := invoke_withInjectors r injectors n
  have shape := shape_withInjectors r injectors n
  generalize made : (r.withInjectors injectors : Supply Resolver).run n = drawn at inside shape
  obtain ⟨inner, k⟩ := drawn
  let target := Composer.injectionShape inner
  let write : Resolver :=
    .function ⟨k, target, some "SchemaInjector"⟩ (Composer.putSchema target schema root)
  refine ⟨⟨[write, inner], some inner, none, true⟩, k + 1,
    Composer.written target schema root call s, ?_, ?_, ?_⟩
  · rw [run_bind, made]
    rfl
  · rw [← shape]
    exact Composer.writes_written target schema root call s
  · rw [run_behind rfl rfl (Composer.putSchema_written target schema root _ s), inside]
    rfl

end Resolver
end SchemaStitch
