import SchemaStitch.Resolver.Run
import SchemaStitch.Proofs.ResolverMap.Walk

/-! Which functions an invocation runs, on which calls and in which stores, and what they find in
the slot for the active schema: a schema that is there when an invocation begins is there when a
function runs, as long as nothing that runs before the function takes it away. -/
namespace SchemaStitch

/-- The schema that a resolver of a shape finds for a call. -/
def Shape.schemaAt (shape : Shape) (call : Call) (s : Store) : Option Schema :=
  match shape with
  | .info => (s.slots call.info.slot).schema
  | .context => (s.contexts call.context).slot.schema

/-- Whether adjusting a call leaves a schema where it is found. -/
def Injector.Keeps (shape : Shape) (schema : Schema) (inject : Injector) : Prop :=
  ∀ call s, shape.schemaAt call s = some schema →
    shape.schemaAt ((inject call).run s).1 ((inject call).run s).2 = some schema

namespace Resolver

/-- Whether an invocation leaves a schema where it is found. -/
def Quiet (shape : Shape) (schema : Schema) (r : Resolver) : Prop :=
  ∀ call s, shape.schemaAt call s = some schema →
    shape.schemaAt call ((r.invoke call).run s).2 = some schema

/-- Whether a function with an identity is part of a resolver. -/
inductive Mentions (id : Nat) : Resolver → Prop
  | function {t : Tag} (h : Handler) (same : t.id = id) : Mentions id (.function t h)
  | injected {inner : Resolver} (t : Tag) (injectors : List Injector)
      (inside : Mentions id inner) : Mentions id (.injected t injectors inner)
  | entry {c : Composer} {r : Resolver} (t : Tag) (member : r ∈ c.order) (inside : Mentions id r) :
      Mentions id (.composed t c)

/-- The runs of functions that an invocation of a resolver on a call in a store makes: the function
that is run, its call and its store. An entry of a composition runs once the entries before it have
succeeded. -/
inductive Runs : Resolver → Call → Store → Tag → Call → Store → Prop
  | function (t : Tag) (h : Handler) (call : Call) (s : Store) :
      Runs (.function t h) call s t call s
  | injected {t f : Tag} {injectors : List Injector} {inner : Resolver}
      {call adjusted called : Call} {s s₁ s' : Store}
      (adjusts : (injectors.foldlM (fun call inject => inject call) call : Act Call).run s =
        (adjusted, s₁))
      (inside : Runs inner adjusted s₁ f called s') :
      Runs (.injected t injectors inner) call s f called s'
  | entry {t f : Tag} {c : Composer} {before after : List Resolver} {r : Resolver}
      {call called : Call} {s s₁ s' : Store} {results : Option Json} (order : c.order = before ++ r :: after)
      (earlier : (invokeAll c call 0 none before).run s = (.ok results, s₁))
      (inside : Runs r { call with accumulated := results } s₁ f called s') :
      Runs (.composed t c) call s f called s'

theorem Runs.mentions {r : Resolver} {call called : Call} {s s' : Store} {f : Tag}
    (runs : Runs r call s f called s') : Mentions f.id r := by
  induction runs with
  | function t h call s => exact .function h rfl
  | injected adjusts inside ih => exact .injected _ _ ih
  | entry order earlier inside ih => exact .entry _ (by simp [order]) ih

mutual

/-- A resolver with another handler in place of that of each function with an identity. -/
def swap (id : Nat) (h : Handler) : Resolver → Resolver
  | .function t own => .function t (if t.id = id then h else own)
  | .injected t injectors inner => .injected t injectors (swap id h inner)
  | .composed t ⟨order, anchor, patcher, layer⟩ =>
    .composed t ⟨swapAll id h order, anchor, patcher, layer⟩

/-- Entries with another handler in place of that of each function with an identity. -/
def swapAll (id : Nat) (h : Handler) : List Resolver → List Resolver
  | [] => []
  | r :: rest => swap id h r :: swapAll id h rest

end

/-- Whether two runs end in one store, with one value if either succeeds. -/
def Alike {α : Type} (a b : Except Failure α × Store) : Prop :=
  a.2 = b.2 ∧ a.1.toOption = b.1.toOption

/-- Whether an invocation runs no function with an identity. -/
def Skips (id : Nat) (r : Resolver) (call : Call) (s : Store) : Prop :=
  ∀ f called s', Runs r call s f called s' → f.id ≠ id

mutual

/-- What a function that an invocation does not run would do makes no difference to it, so no run is
missed. -/
theorem invoke_swap (id : Nat) (h : Handler) (r : Resolver) (call : Call) (s : Store)
    (skips : Skips id r call s) :
    Alike (((swap id h r).invoke call).run s) ((r.invoke call).run s) := by
  match r with
  | .function t own =>
    rw [swap, if_neg (skips t call s (.function t own call s))]
    exact ⟨rfl, rfl⟩
  | .injected t injectors inner =>
    rw [swap, invoke, invoke, run_bind, run_bind]
    exact invoke_swap id h inner _ _ fun f called s' runs => skips f called s' (.injected rfl runs)
  | .composed t ⟨order, anchor, patcher, layer⟩ =>
    have inside := invokeAll_swap id h ⟨order, anchor, patcher, layer⟩
      ⟨swapAll id h order, anchor, patcher, layer⟩ order call 0 none s
      fun before r after results s₁ split earlier f called s' runs =>
        skips f called s' (.entry split earlier runs)
    rw [swap, invoke, invoke, run_bind, run_bind]
    generalize (invokeAll _ call 0 none (swapAll id h order)).run s = swapped at inside ⊢
    generalize (invokeAll _ call 0 none order).run s = own at inside ⊢
    obtain ⟨swapped, s₁⟩ := swapped
    obtain ⟨own, s₂⟩ := own
    obtain ⟨rfl, same⟩ := inside
    cases swapped with
    | error e =>
      cases own with
      | error e => exact ⟨rfl, rfl⟩
      | ok v => cases same
    | ok v =>
      cases own with
      | error e => cases same
      | ok w =>
        cases same
        exact ⟨rfl, rfl⟩

theorem invokeAll_swap (id : Nat) (h : Handler) (c c' : Composer) (entries : List Resolver)
    (call : Call) (index : Nat) (results : Option Json) (s : Store)
    (skips : ∀ before r after results' s₁, entries = before ++ r :: after →
      (invokeAll c call index results before).run s = (.ok results', s₁) →
      Skips id r { call with accumulated := results' } s₁) :
    Alike ((invokeAll c' call index results (swapAll id h entries)).run s)
      ((invokeAll c call index results entries).run s) := by
  match entries with
  | [] => exact ⟨rfl, rfl⟩
  | r :: rest =>
    have first := invoke_swap id h r { call with accumulated := results } s
      (skips [] r rest results s rfl rfl)
    rw [swapAll, invokeAll, invokeAll, run_bind, run_bind]
    cases ran : (r.invoke { call with accumulated := results }).run s with
    | mk own s₁ =>
      rw [ran] at first
      generalize ((swap id h r).invoke { call with accumulated := results }).run s = swapped
        at first ⊢
      obtain ⟨swapped, s₂⟩ := swapped
      obtain ⟨rfl, same⟩ := first
      cases own with
      | error e =>
        cases swapped with
        | error e => exact ⟨rfl, rfl⟩
        | ok v => cases same
      | ok v =>
        cases swapped with
        | error e => cases same
        | ok w =>
          cases same
          refine invokeAll_swap id h c c' rest call (index + 1) (some (Json.combine results v)) _ ?_
          intro before next after results' s₃ split earlier
          refine skips (r :: before) next after results' s₃ (by rw [split]; rfl) ?_
          rw [invokeAll, run_bind, ran]
          exact earlier

end

/-- Whether nothing that runs before a function with an identity takes a schema away: the injectors
around the function keep it, and so does every entry before the one that the function is part of. -/
inductive Clear (shape : Shape) (schema : Schema) (id : Nat) : Resolver → Prop
  | absent {r : Resolver} (nowhere : ¬ Mentions id r) : Clear shape schema id r
  | function (t : Tag) (h : Handler) : Clear shape schema id (.function t h)
  | injected {injectors : List Injector} {inner : Resolver} (t : Tag)
      (keep : ∀ inject ∈ injectors, Injector.Keeps shape schema inject)
      (inside : Clear shape schema id inner) : Clear shape schema id (.injected t injectors inner)
  | composed {c : Composer} (t : Tag)
      (quiet : ∀ before r after, c.order = before ++ r :: after → Mentions id r →
        ∀ earlier ∈ before, Quiet shape schema earlier)
      (inside : ∀ r ∈ c.order, Mentions id r → Clear shape schema id r) :
      Clear shape schema id (.composed t c)

variable {shape : Shape} {schema : Schema}

theorem foldlM_keeps {injectors : List Injector}
    (keep : ∀ inject ∈ injectors, Injector.Keeps shape schema inject) {call : Call} {s : Store}
    (finds : shape.schemaAt call s = some schema) :
    shape.schemaAt ((injectors.foldlM (fun call inject => inject call) call : Act Call).run s).1
      ((injectors.foldlM (fun call inject => inject call) call : Act Call).run s).2 =
      some schema := by
  induction injectors generalizing call s with
  | nil => exact finds
  | cons inject rest ih =>
    rw [List.foldlM_cons, run_bind]
    exact ih (fun other member => keep other (List.mem_cons_of_mem _ member))
      (keep inject List.mem_cons_self call s finds)

theorem schemaAt_accumulated (shape : Shape) (call : Call) (results : Option Json) (s : Store) :
    shape.schemaAt { call with accumulated := results } s = shape.schemaAt call s := by
  cases shape <;> rfl

theorem invokeAll_quiet {entries : List Resolver}
    (quiet : ∀ r ∈ entries, Quiet shape schema r) (c : Composer) {call : Call} (index : Nat)
    (results : Option Json) {s : Store} (finds : shape.schemaAt call s = some schema) :
    shape.schemaAt call ((invokeAll c call index results entries).run s).2 = some schema := by
  induction entries generalizing index results s with
  | nil => exact finds
  | cons r rest ih =>
    rw [invokeAll, run_bind]
    have still := quiet r List.mem_cons_self { call with accumulated := results } s
      (by rwa [schemaAt_accumulated])
    rw [schemaAt_accumulated] at still
    generalize (r.invoke { call with accumulated := results }).run s = invoked at still ⊢
    obtain ⟨result, s₁⟩ := invoked
    cases result with
    | error cause => exact still
    | ok v => exact ih (fun other member => quiet other (List.mem_cons_of_mem _ member)) _ _ still

/-- A schema that is found when an invocation begins is found by every run of a function that
nothing takes it away from. -/
theorem Runs.finds {r : Resolver} {call called : Call} {s s' : Store} {f : Tag}
    (runs : Runs r call s f called s') (clear : Clear shape schema f.id r)
    (finds : shape.schemaAt call s = some schema) : shape.schemaAt called s' = some schema := by
  induction runs with
  | function t h call s => exact finds
  | injected adjusts inside ih =>
    cases clear with
    | absent nowhere => exact absurd (inside.mentions.injected _ _) nowhere
    | injected t keep clear =>
      have still := foldlM_keeps keep finds
      rw [adjusts] at still
      exact ih clear still
  | @entry t f c before after r call called s s₁ s' results order earlier inside ih =>
    cases clear with
    | absent nowhere => exact absurd (.entry _ (by simp [order]) inside.mentions) nowhere
    | composed t quiet clear =>
      have still := invokeAll_quiet (quiet _ _ _ order inside.mentions) c 0 none finds
      rw [earlier] at still
      apply ih (clear _ (by simp [order]) inside.mentions)
      rwa [schemaAt_accumulated]

end Resolver
end SchemaStitch
