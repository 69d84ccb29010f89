import SchemaStitch.Proofs.Bundle.Placeholders
import SchemaStitch.Proofs.Bundle.Survival

/-! However many merges made a bundle, its resolvers carry the layers of the last one only, and its
history holds what its contributors brought in, without any layers. -/
namespace SchemaStitch
open Sdl

/-- Whether a snapshot holds what a bundle has: its text, and its resolvers without what merges put
around them. -/
structure Snapshot.Captures (s : Snapshot) (b : Bundle) : Prop where
  sdl : s.sdl = if b.sdl.isEmpty then none else some b.sdl
  resolvers {path : List String} {own : Resolver} (found : b.map.leaf? path = some (.resolver own)) :
    s.resolvers.leaf? path = some (.resolver own.unmerged)

/-- Whether a resolver of a merge is one that nothing was put around but what the options of the merge
ask for: one layer of injectors if there are any, and one composition of two entries through which
the merged schema is seen if it is to be. -/
structure Resolver.LayeredOnce {m : Type → Type} (o : MergeOptions m) (merged : Bundle)
    (r leaf : Resolver) : Prop where
  bare : r.unmerged = r
  layers : ∃ inner, ((o.injectors = [] ∧ inner = r) ∨ Around o.injectors r inner) ∧
    if o.injectSchema then ∃ s n, merged.typeSchema = .ok s ∧ leaf = inner.seeing s n
    else leaf = inner

namespace Bundle

variable {σ : Type} {o : MergeOptions (StateM σ)} {left right merged : Bundle} {next : Nat}

theorem sdl_capture (b : Bundle) (n : Nat) :
    ((Snapshot.capture b).run n).1.sdl = if b.sdl.isEmpty then none else some b.sdl := by
  rw [Snapshot.capture]
  cases b.currentResolvers <;> rfl

theorem captures_capture {b : Bundle} (reached : b.Reached) (n : Nat) :
    ((Snapshot.capture b).run n).1.Captures b :=
  ⟨sdl_capture b n, fun found => leaf?_capture reached found n⟩

/-- A merge adds one snapshot a side to what both sides have. -/
theorem captures_of_merge (left_reached : left.Reached) (right_reached : right.Reached)
    (merges : MergesTo o left right next merged) :
    ∃ l r, merged.history = left.history ++ right.history ++ [l, r] ∧ l.Captures left ∧
      r.Captures right := by
  obtain ⟨s, run⟩ := merges
  obtain ⟨first, map, n, _, _, rfl⟩ := merge_steps run
  exact ⟨_, _, rfl, captures_capture left_reached _, captures_capture right_reached _⟩

/-- The resolvers of a merge carry its own layers and no others. -/
theorem layeredOnce_of_merge (left_reached : left.Reached) (right_reached : right.Reached)
    (merges : MergesTo o left right next merged) {path : List String} {l : Leaf}
    (found : merged.map.leaf? path = some l) :
    ∃ r leaf, l = .resolver leaf ∧ Resolver.LayeredOnce o merged r leaf := by
  obtain ⟨_, _, joined⟩ := of_merge left_reached.sound right_reached.sound merges
  obtain ⟨r, inner, bare, around, ⟨off, rfl⟩ | ⟨on, s, n, typed, _, rfl⟩⟩ :=
    joined.stitched.leaf_cases found
  · refine ⟨r, inner, rfl, bare, inner, around, ?_⟩
    rw [off]
    rfl
  · refine ⟨r, _, rfl, bare, inner, around, ?_⟩
    rw [if_pos on]
    exact ⟨s, n, typed, rfl⟩

end Bundle

namespace MergeTree

/-- Whether a tree was made by merges, each with options of its own, from contributors without
history. -/
inductive Built : MergeTree → Prop
  | contributor {b : Bundle} (reached : b.Reached) (history : b.history = []) :
      Built (.contributor b)
  | merge {σ : Type} {o : MergeOptions (StateM σ)} {left right : MergeTree} {merged : Bundle}
      {next : Nat} (before : left.Built) (beside : right.Built)
      (merges : Bundle.MergesTo o left.result right.result next merged) :
      Built (.merge merged left right)

theorem Made.built {t : MergeTree} (made : t.Made) : t.Built := by
  induction made with
  | contributor reached history by_field => exact .contributor reached history
  | merge before beside merges left_ih right_ih => exact .merge left_ih right_ih merges

theorem Built.reached {t : MergeTree} (built : t.Built) : t.result.Reached := by
  induction built with
  | contributor reached history => exact reached
  | merge before beside merges left_ih right_ih => exact .merge left_ih right_ih merges

/-- What a contributor has is in the history of a tree, unless the tree is the contributor alone. -/
theorem Built.captured {t : MergeTree} (built : t.Built) {c : Bundle}
    (member : c ∈ t.contributors) :
    t = .contributor c ∨ ∃ s ∈ t.result.history, s.Captures c := by
  induction built with
  | contributor reached history =>
    rw [List.mem_singleton.mp member]
    exact .inl rfl
  | @merge σ o left right merged next before beside merges left_ih right_ih =>
    right
    obtain ⟨l, r, history, l_captures, r_captures⟩ :=
      Bundle.captures_of_merge before.reached beside.reached merges
    rw [result, history]
    rcases List.mem_append.mp member with member | member
    · rcases left_ih member with rfl | ⟨s, inside, captures⟩
      · exact ⟨l, by simp, l_captures⟩
      · exact ⟨s, by simp [inside], captures⟩
    · rcases right_ih member with rfl | ⟨s, inside, captures⟩
      · exact ⟨r, by simp, r_captures⟩
      · exact ⟨s, by simp [inside], captures⟩

/-- A merge of trees adds one snapshot a side to the history of both, so there is one of every
contributor. No snapshot holds a layer of any merge, and every resolver that the merge made has the
layers of this merge alone. -/
theorem layers_never_pile_up {σ : Type} {o : MergeOptions (StateM σ)} {left right : MergeTree}
    {merged : Bundle} {next : Nat} (before : left.Built) (beside : right.Built)
    (merges : Bundle.MergesTo o left.result right.result next merged) :
    (∀ s ∈ merged.history, ∀ path l, s.resolvers.leaf? path = some l →
      ∃ r, l = .resolver r ∧ r.unmerged = r) ∧
    (∃ l r, merged.history = left.result.history ++ right.result.history ++ [l, r] ∧
      l.Captures left.result ∧ r.Captures right.result) ∧
    (∀ c ∈ left.contributors ++ right.contributors, ∃ s ∈ merged.history, s.Captures c) ∧
    ∀ path l, merged.map.leaf? path = some l →
      ∃ r leaf, l = .resolver leaf ∧ Resolver.LayeredOnce o merged r leaf := by
  have built : (merge merged left right).Built := .merge before beside merges
  refine ⟨fun s member => (built.reached.sound.history s member).plain, ?_, fun c member => ?_,
    fun path l => Bundle.layeredOnce_of_merge before.reached beside.reached merges⟩
  · exact Bundle.captures_of_merge before.reached beside.reached merges
  · exact (built.captured member).resolve_left (by simp)

/-- A merge that does all that options can ask for. -/
def thorough : MergeOptions (StateM Unit) := ⟨.keepRight, [Injector.dropArguments], true, true⟩

/-- Two thorough merges leave one layer of either kind around a resolver, and a snapshot of each
contributor beside that of what the first of them made. -/
theorem layers_never_pile_up_twice :
    ∃ (later merged : Bundle),
      let left := contributor (supplier "a" 0)
      let right := merge later (contributor bystander) (contributor (supplier "b" 1))
      left.Built ∧ right.Built ∧ Bundle.MergesTo thorough left.result right.result 9 merged ∧
      merged.history.length = 4 ∧
      (∀ c ∈ [supplier "a" 0, bystander, supplier "b" 1], ∃ s ∈ merged.history, s.Captures c) ∧
      ∃ leaf r inner s n, merged.map.leaf? ["Query", "b"] = some (.resolver leaf) ∧
        leaf = Resolver.seeing s n inner ∧ Resolver.Around [Injector.dropArguments] r inner ∧
        r.unmerged = r := by
  have run : (((Bundle.merge thorough bystander (supplier "b" 1)).run 2).run
      ()).1.1.toOption.any (fun later =>
        (((Bundle.merge thorough (supplier "a" 0) later).run 9).run ()).1.1.toOption.any
          fun merged => (merged.map.leaf? ["Query", "b"]).isSome) = true := by
    decide +kernel
  obtain ⟨later, later_run, passes⟩ := ok_of_any run
  obtain ⟨merged, merged_run, stands⟩ := ok_of_any passes
  obtain ⟨l, found⟩ := Option.isSome_iff_exists.mp stands
  have later_merges : Bundle.MergesTo thorough bystander (supplier "b" 1) 2 later := ⟨(), later_run⟩
  have merges : Bundle.MergesTo thorough (supplier "a" 0) later 9 merged := ⟨(), merged_run⟩
  have first : (contributor (supplier "a" 0)).Built := (made_supplier "a" 0).built
  have second : (merge later (contributor bystander) (contributor (supplier "b" 1))).Built :=
    .merge made_bystander.built (made_supplier "b" 1).built later_merges
  obtain ⟨_, ⟨own, other, history, _⟩, captured, layered⟩ :=
    layers_never_pile_up first second merges
  obtain ⟨l', r', earlier, _⟩ := Bundle.captures_of_merge made_bystander.built.reached
    (made_supplier "b" 1).built.reached later_merges
  refine ⟨later, merged, first, second, merges, ?_, captured, ?_⟩
  · have lengths : merged.history.length = later.history.length + 2 := by
      rw [history, List.length_append, List.length_append]
      exact congrArg (· + 2) (Nat.zero_add _)
    rw [lengths, earlier]
    rfl
  · obtain ⟨r, leaf, rfl, bare, inner, around, seen⟩ := layered _ l found
    obtain ⟨s, n, _, same⟩ := seen
    exact ⟨leaf, r, inner, s, n, found, same, around.resolve_left (by simp [thorough]), bare⟩

end MergeTree
end SchemaStitch
