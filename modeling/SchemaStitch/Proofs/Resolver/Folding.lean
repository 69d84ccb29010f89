import SchemaStitch.Proofs.Assoc
import SchemaStitch.Proofs.ResolverMap.Walk
import SchemaStitch.Resolver.Run

/-! A composition folds over its entries. What an entry finds accumulated is said here by the results
before it alone: the last of them, or, when objects come last, the union of those objects. The
first entry that fails ends the run, and the patcher runs at most once, after all entries. -/
namespace SchemaStitch

/-- The fields of a value, if it is an object. -/
def Json.fields? : Json → Option Json.Fields
  | .object fields => some fields
  | _ => none

namespace Json

theorem eq_object {v : Json} {fields : Fields} (has : v.fields? = some fields) :
    v = .object fields := by
  cases v with
  | object => exact congrArg object (Option.some.inj has)
  | _ => cases has

theorem combine_plain {v : Json} (plain : v.fields? = none) (before : Option Json) :
    combine before v = v := by
  cases v with
  | object => cases plain
  | _ => simp only [combine]

theorem combine_after_plain {u : Json} (plain : u.fields? = none) (v : Json) :
    combine (some u) v = v := by
  cases u with
  | object => cases plain
  | _ => simp only [combine]

/-- The shallow union of objects: their fields in the order of first occurrence, each with the value
that the last object with the field gives it. -/
structure Union (objects : List Fields) (fields : Fields) : Prop where
  keys : Assoc.keys fields = (objects.flatMap Assoc.keys).eraseDups
  values (key : String) :
    Assoc.get? fields key = objects.reverse.findSome? fun object => Assoc.get? object key

theorem union_single {object : Fields} (nodup : (Assoc.keys object).Nodup) :
    Union [object] object where
  keys := by
    have alone : Assoc.overlay [] object = object := Assoc.overlay_fresh nodup
    have none : Assoc.keys ([] : Fields) = ([] : List String).eraseDups := rfl
    have keys := Assoc.keys_overlay none object
    rw [alone] at keys
    simpa using keys
  values key := by
    rw [List.reverse_singleton, List.findSome?_singleton]

theorem Union.overlay {objects : List Fields} {fields object : Fields}
    (union : Union objects fields) (nodup : (Assoc.keys object).Nodup) :
    Union (objects ++ [object]) (Assoc.overlay fields object) where
  keys := by
    rw [Assoc.keys_overlay union.keys, List.flatMap_append, List.flatMap_singleton]
  values key := by
    rw [Assoc.get?_overlay nodup, union.values, List.reverse_append, List.reverse_singleton,
      List.singleton_append, List.findSome?_cons]
    cases Assoc.get? object key <;> rfl

end Json

/-- What is accumulated after results: nothing before there are any, the last result if it is no
object, and else the union of the objects at the end, back to the last result that is none. An
object has a field once. -/
inductive Accumulated : List Json → Option Json → Prop
  | nothing : Accumulated [] none
  | last (earlier : List Json) {v : Json} (plain : v.fields? = none) :
      Accumulated (earlier ++ [v]) (some v)
  | objects {earlier : List Json} {objects : List Json.Fields} {fields : Json.Fields}
      (stops : ∀ v ∈ earlier.getLast?, v.fields? = none) (some_object : objects ≠ [])
      (union : (∀ object ∈ objects, (Assoc.keys object).Nodup) → Json.Union objects fields) :
      Accumulated (earlier ++ objects.map .object) (some (.object fields))

theorem Accumulated.next {results : List Json} {before : Option Json}
    (accumulated : Accumulated results before) (v : Json) :
    Accumulated (results ++ [v]) (some (Json.combine before v)) := by
  cases kind : v.fields? with
  | none =>
    rw [Json.combine_plain kind]
    exact .last results kind
  | some fields =>
    obtain rfl := Json.eq_object kind
    have alone : (∀ object ∈ [fields], (Assoc.keys object).Nodup) → Json.Union [fields] fields :=
      fun nodup => Json.union_single (nodup fields List.mem_cons_self)
    cases accumulated with
    | nothing => exact @Accumulated.objects [] [fields] fields (by simp) (by simp) alone
    | @last earlier u plain =>
      rw [Json.combine_after_plain plain]
      exact @Accumulated.objects (earlier ++ [u]) [fields] fields (by simpa using plain) (by simp)
        alone
    | @objects earlier objects united stops some_object union =>
      have together : earlier ++ objects.map Json.object ++ [.object fields] =
          earlier ++ (objects ++ [fields]).map Json.object := by simp
      rw [together]
      refine .objects stops (by simp) fun nodup => ?_
      exact (union fun object member => nodup object (by simp [member])).overlay
        (nodup fields (by simp))

theorem Composer.run_patch (c : Composer) (call : Call) (results : Json) (s : Store) :
    (c.patch call results).run s =
      match c.patcher with
      | none => (.ok results, s)
      | some p =>
        let patched := (p results).run s
        (patched.1.mapError fun text => @Failure.patcher (.message text) p call results,
          patched.2) := by
  rw [patch]
  cases c.patcher with
  | none => rfl
  | some p =>
    dsimp only
    rw [run_bind]
    generalize (p results).run s = ran
    obtain ⟨answer, s'⟩ := ran
    cases answer <;> rfl

namespace Resolver

/-- The entries of a composition answer one after the other, each on the call of the composition with
what the results before it have accumulated, in the store that the entry before it left. -/
inductive Rounds (call : Call) (s : Store) : List Resolver → List Json → Store → Prop
  | start : Rounds call s [] [] s
  | next {entries : List Resolver} {results : List Json} {s₁ s₂ : Store} {r : Resolver} {v : Json}
      {accumulated : Option Json} (earlier : Rounds call s entries results s₁)
      (sees : Accumulated results accumulated)
      (answers : (r.invoke { call with accumulated }).run s₁ = (.ok v, s₂)) :
      Rounds call s (entries ++ [r]) (results ++ [v]) s₂

/-- The entries of a composition answer one after the other until one fails: which one that is, the
call that it is given, its failure and the store that it leaves. -/
inductive Stops (call : Call) (s : Store) : List Resolver → Nat → Call → Failure → Store → Prop
  | fails {before : List Resolver} {results : List Json} {s₁ s₂ : Store} {r : Resolver}
      {e : Failure} {accumulated : Option Json} (earlier : Rounds call s before results s₁)
      (sees : Accumulated results accumulated)
      (fails : (r.invoke { call with accumulated }).run s₁ = (.error e, s₂))
      (after : List Resolver) :
      Stops call s (before ++ r :: after) before.length { call with accumulated } e s₂

/-- All entries answer, or the first one that fails ends the run. -/
theorem invokeAll_rounds (c : Composer) (call : Call) {s s₁ : Store} {done : List Resolver}
    {results : List Json} {accumulated : Option Json} (earlier : Rounds call s done results s₁)
    (sees : Accumulated results accumulated) (entries : List Resolver) :
    (∃ results' accumulated' s', Rounds call s (done ++ entries) results' s' ∧
      Accumulated results' accumulated' ∧
      (invokeAll c call done.length accumulated entries).run s₁ = (.ok accumulated', s')) ∨
    ∃ index step e s', Stops call s (done ++ entries) index step e s' ∧
      (invokeAll c call done.length accumulated entries).run s₁ =
        (.error (.entry e c index step), s') := by
  induction entries generalizing done results accumulated s₁ with
  | nil =>
    refine .inl ⟨results, accumulated, s₁, ?_, sees, rfl⟩
    rwa [List.append_nil]
  | cons r rest ih =>
    rw [invokeAll, run_bind]
    cases ran : (r.invoke { call with accumulated }).run s₁ with
    | mk result s₂ =>
      cases result with
      | error e => exact .inr ⟨_, _, e, s₂, .fails earlier sees ran rest, rfl⟩
      | ok v =>
        have later := ih (earlier.next sees ran) (sees.next v)
        rwa [List.append_assoc, List.length_append] at later

/-- A composition runs its entries in order, each on the call of the composition with what the entries
before it have accumulated. Either all of them answer, and the patcher, if there is one, has the
last word on what they have accumulated. Or the first one that fails ends the run there, and the
failure tells its index and the call it was given. -/
theorem composition_folds (c : Composer) (call : Call) (s : Store) :
    (∃ results accumulated s', Rounds call s c.order results s' ∧
      Accumulated results accumulated ∧
      (c.run call).run s =
        let combined := accumulated.getD .null
        match c.patcher with
        | none => (.ok combined, s')
        | some p =>
          let patched := (p combined).run s'
          (patched.1.mapError fun text => @Failure.patcher (.message text) p call combined,
            patched.2)) ∨
    ∃ index step e s', Stops call s c.order index step e s' ∧
      (c.run call).run s = (.error (.entry e c index step), s') := by
  rw [Composer.run, run_bind]
  obtain ⟨results, accumulated, s', rounds, sees, ran⟩ | ⟨index, step, e, s', stops, ran⟩ :=
    invokeAll_rounds c call (.start : Rounds call s [] [] s) .nothing c.order
  · refine .inl ⟨results, accumulated, s', rounds, sees, ?_⟩
    rw [List.length_nil] at ran
    rw [ran]
    exact c.run_patch call _ s'
  · refine .inr ⟨index, step, e, s', stops, ?_⟩
    rw [List.length_nil] at ran
    rw [ran]
    rfl

end Resolver
end SchemaStitch
