import SchemaStitch.Proofs.Resolver.Layers
import SchemaStitch.Resolver.Run

/-! Resolvers that an owner builds by hand. Nothing in them is a layer of a merge, so taking such
layers off takes off no more than the injectors that stand outermost; and a layer that a merge puts
around a resolver does to an invocation what is said here, and nothing else. -/
namespace SchemaStitch

mutual

/-- The resolvers that are built of functions by putting injectors around resolvers and by editing
compositions, in any shape and under any label. -/
inductive Resolver.Owned : Resolver → Prop
  | function (t : Tag) (h : Handler) : Resolver.Owned (.function t h)
  | injected (t : Tag) (injectors : List Injector) {inner : Resolver} (own : Resolver.Owned inner) :
      Resolver.Owned (.injected t injectors inner)
  | composed (t : Tag) {c : Composer} (own : Composer.Owned c) : Resolver.Owned (.composed t c)

/-- The compositions that are built around such resolvers with such resolvers as entries. -/
inductive Composer.Owned : Composer → Prop
  | around {r : Resolver} (own : Resolver.Owned r) : Composer.Owned (Composer.around r)
  | prepend {r : Resolver} {c : Composer} (entry : Resolver.Owned r) (own : Composer.Owned c) :
      Composer.Owned (Composer.prepend r c)
  | append {r : Resolver} {c : Composer} (entry : Resolver.Owned r) (own : Composer.Owned c) :
      Composer.Owned (Composer.append r c)
  | push {r : Resolver} {c : Composer} (entry : Resolver.Owned r) (own : Composer.Owned c) :
      Composer.Owned (Composer.push r c)
  | remove (r : Resolver) {c : Composer} (own : Composer.Owned c) :
      Composer.Owned (Composer.remove r c).1
  | setPatcher (p : Option Patcher) {c : Composer} (own : Composer.Owned c) :
      Composer.Owned (Composer.setPatcher p c)

end

namespace Composer

theorem owned_wrap {anchor : Resolver} {prepends appends : List Resolver} (own : anchor.Owned)
    (before : ∀ r ∈ prepends, r.Owned) (after : ∀ r ∈ appends, r.Owned) (p : Option Patcher) :
    (Composer.wrap anchor prepends appends p).Owned := by
  have prepended : (prepends.foldr prepend (around anchor)).Owned := by
    induction prepends with
    | nil => exact .around own
    | cons r rest ih =>
      exact .prepend (before r List.mem_cons_self)
        (ih fun other member => before other (List.mem_cons_of_mem r member))
  have appended : (appends.foldr append (prepends.foldr prepend (around anchor))).Owned := by
    induction appends with
    | nil => exact prepended
    | cons r rest ih =>
      exact .append (after r List.mem_cons_self)
        (ih fun other member => after other (List.mem_cons_of_mem r member))
  rw [Composer.wrap]
  split
  · exact .setPatcher p appended
  · exact appended

theorem mergeLayer_around (r : Resolver) : (around r).mergeLayer = false := by
  rw [around]
  split <;> rfl

theorem mergeLayer_remove (r : Resolver) (c : Composer) :
    (remove r c).1.mergeLayer = c.mergeLayer := by
  rw [remove]
  split <;> rfl

/-- No composition that an owner builds is the layer of a merge. -/
theorem Owned.mergeLayer {c : Composer} : c.Owned → c.mergeLayer = false
  | .around _ => mergeLayer_around _
  | .prepend _ own => own.mergeLayer
  | .append _ own => own.mergeLayer
  | .push _ own => own.mergeLayer
  | .remove r own => (mergeLayer_remove r _).trans own.mergeLayer
  | .setPatcher _ own => own.mergeLayer

end Composer

namespace Resolver

theorem Owned.mapTag {r : Resolver} (own : r.Owned) (f : Tag → Tag) : (r.mapTag f).Owned := by
  cases own with
  | function t h => exact .function _ h
  | injected t injectors own => exact .injected _ injectors own
  | composed t own => exact .composed _ own

/-- The injectors that stand outermost, in the order in which they adjust a call. -/
def outerInjectors : Resolver → List Injector
  | .injected _ injectors inner => injectors ++ inner.outerInjectors
  | _ => []

/-- The resolver without the injectors that stand outermost. -/
def uninjected : Resolver → Resolver
  | .injected _ _ inner => inner.uninjected
  | r => r

/-- Invokes a resolver on a call that injectors have adjusted. -/
def invokeAfter (injectors : List Injector) (r : Resolver) (call : Call) :
    Act (Except Failure Json) := do
  r.invoke (← injectors.foldlM (fun call inject => inject call) call)

theorem invokeAfter_nil (r : Resolver) : r.invokeAfter [] = r.invoke := by
  funext call
  exact pure_bind call r.invoke

theorem invoke_injected (t : Tag) (injectors : List Injector) (r : Resolver) :
    (Resolver.injected t injectors r).invoke = r.invokeAfter injectors := by
  funext call
  rw [invoke]
  rfl

theorem invokeAfter_append (first later : List Injector) (r : Resolver) (call : Call) :
    r.invokeAfter (first ++ later) call =
      (do r.invokeAfter later (← first.foldlM (fun call inject => inject call) call)) := by
  simp only [invokeAfter, List.foldlM_append, bind_assoc]

/-- Invoking a resolver is invoking what is inside its outermost injectors after them. -/
theorem invoke_eq (r : Resolver) : r.invoke = r.uninjected.invokeAfter r.outerInjectors := by
  fun_induction uninjected r with
  | case1 t injectors inner ih =>
    funext call
    rw [invoke_injected, outerInjectors, invokeAfter_append, invokeAfter, ih]
  | case2 r bare =>
    have without : r.outerInjectors = [] := by
      cases r with
      | injected t injectors inner => exact absurd rfl (bare t injectors inner)
      | _ => rfl
    rw [without, invokeAfter_nil]

/-- Merges have put nothing around a resolver that its owner has built, so only its outermost injectors
can be taken for layers of a merge. -/
theorem Owned.unmerged : {r : Resolver} → r.Owned → r.unmerged = r.uninjected
  | _, .function _ _ => rfl
  | _, .injected _ _ own => own.unmerged
  | .composed t ⟨order, anchor, patcher, layer⟩, .composed _ own => by
    have plain : layer = false := own.mergeLayer
    subst plain
    cases anchor <;> rfl

end Resolver

/-- A store in which a schema stands where resolvers of a shape look for it. -/
def Shape.shown (shape : Shape) (schema : Schema) (call : Call) (s : Store) : Store :=
  match shape with
  | .info =>
    s.setSlot call.info.slot { s.slots call.info.slot with schema := some schema }
  | .context =>
    let d := s.contexts call.context
    s.setContext call.context { d with slot := { d.slot with schema := some schema } }

theorem Composer.run_putSchema (shape : Shape) (schema : Schema) (call : Call) (s : Store) :
    (putSchema shape schema none call).run s =
      (.ok (call.accumulated.getD .null), shape.shown schema call s) := by
  cases shape <;> rfl

namespace Resolver

/-- The composition of a resolver that sees a schema. -/
def layer (schema : Schema) (n : Nat) (r : Resolver) : Composer :=
  let shape := Composer.injectionShape r
  ⟨[.function ⟨n, shape, some "SchemaInjector"⟩ (Composer.putSchema shape schema none), r], some r,
    none, true⟩

/-- A composition of a function that answers null and of one resolver invokes the resolver once, with
null accumulated, and answers what it answers; a failure is told as that of the second entry. -/
theorem run_behind {c : Composer} {t : Tag} {h : Handler} {r : Resolver}
    (order : c.order = [.function t h, r]) (plain : c.patcher = none) {call : Call} {s s₁ : Store}
    (answers : (h { call with accumulated := none }).run s = (.ok .null, s₁)) :
    (c.run call).run s =
      let step : Call := { call with accumulated := some .null }
      let ran := (r.invoke step).run s₁
      (ran.1.mapError (.entry · c 1 step), ran.2) := by
  have entries : (invokeAll c call 0 none c.order).run s =
      (invokeAll c call 1 (some .null) [r]).run s₁ := by
    rw [order, invokeAll, run_bind, invoke, run_bind, answers]
    rfl
  rw [Composer.run, run_bind, entries, invokeAll, run_bind]
  dsimp only
  generalize (r.invoke { call with accumulated := some .null }).run s₁ = ran
  obtain ⟨result, s'⟩ := ran
  cases result with
  | error e => rfl
  | ok v =>
    change (c.patch call v).run s' = (.ok v, s')
    rw [Composer.patch, plain]
    rfl

/-- A layer of a merge invokes the resolver inside once, with the schema shown and null accumulated, and
answers what it answers; a failure is told as that of the second entry. -/
theorem run_seeing (schema : Schema) (n : Nat) (r : Resolver) (call : Call) (s : Store) :
    ((r.seeing schema n).invoke call).run s =
      let step : Call := { call with accumulated := some .null }
      let ran := (r.invoke step).run ((Composer.injectionShape r).shown schema call s)
      (ran.1.mapError (.entry · (r.layer schema n) 1 step), ran.2) :=
  run_behind (c := r.layer schema n) rfl rfl (Composer.run_putSchema _ schema _ s)

end Resolver
end SchemaStitch
