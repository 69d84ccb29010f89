import SchemaStitch.Bundle.Merge
import SchemaStitch.Proofs.ResolverMap.Walk

/-! What merges put around resolvers, layer by layer, and what is left when the layers are taken
off again. -/
namespace SchemaStitch

namespace Resolver

/-- Nothing that a merge put around a resolver is left to take off a second time. -/
@[simp] theorem unmerged_unmerged (r : Resolver) : r.unmerged.unmerged = r.unmerged := by
  fun_induction Resolver.unmerged r with
  | case1 t h => rfl
  | case2 t injectors inner ih => exact ih
  | case3 t order anchor patcher ih => exact ih
  | case4 t order patcher => rfl
  | case5 t order anchor patcher => cases anchor <;> rfl

/-- What merges put around a resolver leaves its base as it is. -/
@[simp] theorem base_unmerged (r : Resolver) : r.unmerged.base = r.base := by
  fun_induction Resolver.unmerged r with
  | case1 t h => rfl
  | case2 t injectors inner ih => exact ih
  | case3 t order anchor patcher ih => exact ih
  | case4 t order patcher => rfl
  | case5 t order anchor patcher => rfl

/-- A resolver that sees a schema, with `n` and the identity after it drawn for the layer. -/
def seeing (s : Schema) (n : Nat) (r : Resolver) : Resolver :=
  let shape := Composer.injectionShape r
  let injector := function ⟨n, shape, some "SchemaInjector"⟩ (Composer.putSchema shape s none)
  composed ⟨n + 1, r.shape, none⟩ ⟨[injector, r], some r, none, true⟩

@[simp] theorem unmerged_seeing (s : Schema) (n : Nat) (r : Resolver) :
    (r.seeing s n).unmerged = r.unmerged := rfl

theorem run_withInjectors {injectors : List Injector} (some_injector : injectors.isEmpty = false)
    (r : Resolver) (n : Nat) :
    (r.withInjectors injectors : Supply Resolver).run n =
      (.injected { r.tag with id := n } injectors r, n + 1) := by
  rw [withInjectors, some_injector]
  rfl

/-- One resolver is another one with injectors put around it. -/
def Around (injectors : List Injector) (r r' : Resolver) : Prop :=
  injectors.isEmpty = false ∧ ∃ n, r' = .injected { r.tag with id := n } injectors r

/-- One resolver is another one that sees a schema, through a layer made once `first` identities had
been drawn. -/
def Sees (s : Schema) (first : Nat) (r r' : Resolver) : Prop := ∃ n, first ≤ n ∧ r' = r.seeing s n

end Resolver

namespace ResolverMap

/-- The answer to a leaf, in terms of the resolver that is shown for it. -/
def Through (P : Resolver → Resolver → Prop) (l : Leaf) (r : Resolver) : Prop :=
  ∃ seen, (∀ own, l = .resolver own → own = seen) ∧ P seen r

/-- Every leaf of a map has given way to an answer to the resolver that is shown for it. -/
def Renewed (P : Resolver → Resolver → Prop) (before after : ResolverMap) : Prop :=
  ∀ path, Answered (Through P) (before.leaf? path) (after.leaf? path)

theorem Renewed.none_iff {P : Resolver → Resolver → Prop} {before after : ResolverMap}
    (renewed : Renewed P before after) (path : List String) :
    after.leaf? path = none ↔ before.leaf? path = none := (renewed path).none_iff

theorem Renewed.resolver {P : Resolver → Resolver → Prop} {before after : ResolverMap}
    (renewed : Renewed P before after) {path : List String} {r : Resolver}
    (found : before.leaf? path = some (.resolver r)) :
    ∃ r', after.leaf? path = some (.resolver r') ∧ P r r' := by
  have answered := renewed path
  rw [found] at answered
  obtain ⟨r', stands, seen, own, good⟩ := answered.some
  rw [← own r rfl] at good
  exact ⟨r', stands, good⟩

/-- A walk that wraps raw values and whose visitor answers everywhere. Once `first` identities have
been drawn, it draws from those after them. -/
theorem walk_answered {visitor : Visitor Supply} {first : Nat} {P : Resolver → Resolver → Prop}
    (answers : ∀ v k, first ≤ k → ∃ r k', (visitor v).run k = (some r, k') ∧ first ≤ k' ∧
      P v.resolver r)
    {map : ResolverMap} (keyed : map.Keyed) {n : Nat} (drawn : first ≤ n) :
    ∃ out n', (map.walk visitor true []).run n = (.ok out, n') ∧ first ≤ n' ∧ out.Keyed ∧
      out.Pruned ∧ Renewed P map out := by
  have always : Tour.Always ⟨visitor, true, [], map⟩ (first ≤ ·) (Through P) := by
    intro here key l k holds
    obtain ⟨seen, k₁, shows, later, own⟩ : ∃ seen k₁,
        (shown l : Supply Resolver).run k = (seen, k₁) ∧ first ≤ k₁ ∧
          ∀ own, l = .resolver own → own = seen := by
      cases l with
      | resolver r => exact ⟨r, k, rfl, holds, fun own same => (Leaf.resolver.inj same).symm⟩
      | value v => exact ⟨_, _, rfl, Nat.le_succ_of_le holds, fun own same => by cases same⟩
    obtain ⟨r, k₂, asked, still, good⟩ := answers ⟨key, seen, here, map⟩ k₁ later
    have run : ((shown l : Supply Resolver) >>= Tour.ask ⟨visitor, true, [], map⟩ here key).run k =
        (some r, k₂) := by
      rw [run_bind, shows]
      exact asked
    rw [run]
    exact ⟨still, r, rfl, seen, own, good⟩
  exact ⟨_, _, walk_run visitor [] keyed n, gather_inv always [] map drawn,
    keyed_gather _ [] keyed n, pruned_gather _ [] map n,
    fun path => answered_gather always [] keyed path drawn⟩

theorem unmerged_run {map : ResolverMap} (keyed : map.Keyed) {first n : Nat} (drawn : first ≤ n) :
    ∃ out n', map.unmerged.run n = (out, n') ∧ first ≤ n' ∧ out.Keyed ∧ out.Pruned ∧
      Renewed (fun r r' => r' = r.unmerged) map out := by
  let visitor : Visitor Supply := fun v => return some v.resolver.unmerged
  have walked : ∃ out n', (map.walk visitor true []).run n = (.ok out, n') ∧ first ≤ n' ∧
      out.Keyed ∧ out.Pruned ∧ Renewed (fun r r' => r' = r.unmerged) map out := by
    apply walk_answered (fun v k holds => ?_) keyed drawn
    exact ⟨v.resolver.unmerged, k, rfl, holds, rfl⟩
  obtain ⟨out, n', walked, facts⟩ := walked
  refine ⟨out, n', ?_, facts⟩
  rw [ResolverMap.unmerged, run_bind, walked]
  rfl

theorem injectCalls_run {injectors : List Injector} (some_injector : injectors.isEmpty = false)
    {map : ResolverMap} (keyed : map.Keyed) {first n : Nat} (drawn : first ≤ n) :
    ∃ out n', (map.injectCalls injectors).run n = (.ok out, n') ∧ first ≤ n' ∧ out.Keyed ∧
      out.Pruned ∧ Renewed (Resolver.Around injectors) map out := by
  apply walk_answered (fun v k holds => ?_) keyed drawn
  refine ⟨_, k + 1, ?_, Nat.le_succ_of_le holds, some_injector, k, rfl⟩
  rw [run_bind, Resolver.run_withInjectors some_injector]
  rfl

theorem injectSchema_run (s : Schema) {map : ResolverMap} (keyed : map.Keyed) {first n : Nat}
    (drawn : first ≤ n) :
    ∃ out n', (map.injectSchema s).run n = (.ok out, n') ∧ first ≤ n' ∧ out.Keyed ∧ out.Pruned ∧
      Renewed (Resolver.Sees s first) map out := by
  apply walk_answered (fun v k holds => ?_) keyed drawn
  exact ⟨_, k + 2, rfl, by omega, k, holds, rfl⟩

end ResolverMap
end SchemaStitch
