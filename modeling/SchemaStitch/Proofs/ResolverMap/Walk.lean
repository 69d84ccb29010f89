import SchemaStitch.ResolverMap.Walk
import SchemaStitch.Proofs.KeyTree.Sites

/-! A strict walk that comes upon no value, or that wraps values, never stumbles, and the map it
builds has the shape of the map it goes through: each leaf gives way to the visitor's answer and
branches without answers are left out. Writes by path into one growing map thus amount to a
recursion on the map. -/
namespace SchemaStitch

@[simp] theorem run_bind {σ α β : Type} (x : StateM σ α) (next : α → StateM σ β) (s : σ) :
    (x >>= next).run s = (next (x.run s).1).run (x.run s).2 := rfl

@[simp] theorem run_pure {σ α : Type} (a : α) (s : σ) : (pure a : StateM σ α).run s = (a, s) := rfl

/-- A walk gets past a leaf that is a resolver or is wrapped in one. -/
def Leaf.Passes (wrap : Bool) (l : Leaf) : Prop := wrap = true ∨ l.isResolver = true

theorem Leaf.passes_or_value (wrap : Bool) (l : Leaf) :
    l.Passes wrap ∨ wrap = false ∧ ∃ v, l = .value v := by
  cases wrap with
  | true => exact Or.inl (Or.inl rfl)
  | false =>
    cases l with
    | resolver r => exact Or.inl (Or.inr rfl)
    | value v => exact Or.inr ⟨rfl, v, rfl⟩

theorem Leaf.Passes.wraps {wrap : Bool} {v : Json} (passes : (Leaf.value v).Passes wrap) :
    wrap = true := passes.resolve_right (by simp [isResolver, resolver?])

namespace ResolverMap

variable {σ : Type} [Fresh (StateM σ)]

/-- The resolver that a walk shows the visitor for a leaf: for a value, a new one that answers the
value and bears its text. -/
def shown : Leaf → StateM σ Resolver
  | .resolver r => return r
  | .value v => do
    let label := match v with
      | .string s => s
      | other => other.render
    return .function ⟨← Fresh.fresh, .info, some label⟩ fun _ => return .ok v

/-- The map of a visitor's answers. -/
def gather (t : Tour (StateM σ)) (here : List String) : ResolverMap → StateM σ ResolverMap
  | .nil => return .nil
  | .leaf key l rest => do
    let answer ← t.ask here key (← shown l)
    let rest ← gather t here rest
    return match answer with
      | some r => .leaf key (.resolver r) rest
      | none => rest
  | .branch key sub rest => do
    let sub ← gather t (here ++ [key]) sub
    let rest ← gather t here rest
    return if sub.isEmpty then rest else .branch key sub rest

theorem strictFrom_leaf {t : Tour (StateM σ)} {l : Leaf} (passes : l.Passes t.wrap) (here : List String)
    (whole built : ResolverMap) (key : String) (rest : ResolverMap) :
    strictFrom t here whole built (.leaf key l rest) =
      shown l >>= t.ask here key >>= fun
        | some answer => strictFrom t here whole (built.setAt key (entry answer) here).1 rest
        | none => strictFrom t here whole built rest := by
  cases l with
  | resolver r => rfl
  | value v => rw [strictFrom, if_pos passes.wraps]; rfl

theorem strictFrom_run {t : Tour (StateM σ)} {map : ResolverMap} (keyed : map.Keyed)
    {here : List String} (passes : ∀ x ∈ map.sites here, x.leaf.Passes t.wrap) (whole : ResolverMap)
    {built : ResolverMap} (fresh : ∀ k ∈ map.keys, k ∉ (built.branchAt here).keys) (s : σ) :
    (strictFrom t here whole built map).run s =
      (.ok (built.attach here ((gather t here map).run s).1), ((gather t here map).run s).2) := by
  induction map generalizing here whole built s with
  | nil => rfl
  | leaf key l rest ih =>
    obtain ⟨pass, rest_passes⟩ := List.forall_mem_cons.mp passes
    obtain ⟨key_fresh, rest_fresh⟩ := List.forall_mem_cons.mp fresh
    rw [strictFrom_leaf pass, gather]
    simp only [run_bind]
    generalize (shown l).run s = seen
    generalize (t.ask here key seen.1).run seen.2 = asked
    obtain ⟨_ | answer, s⟩ := asked
    · exact ih keyed.2 rest_passes whole rest_fresh s
    · rw [ih keyed.2 rest_passes whole (KeyTree.lacking_setAt _ rest_fresh keyed.1)]
      rw [KeyTree.attach_cons key_fresh]
      rfl
  | branch key sub rest ih_sub ih =>
    obtain ⟨differ, sub_keyed, rest_keyed⟩ := keyed
    obtain ⟨sub_passes, rest_passes⟩ := List.forall_mem_append.mp passes
    obtain ⟨key_fresh, rest_fresh⟩ := List.forall_mem_cons.mp fresh
    have deeper := KeyTree.branchAt_deeper key_fresh
    rw [strictFrom, gather]
    simp only [run_bind]
    rw [ih_sub sub_keyed sub_passes sub (by simp [deeper, KeyTree.keys])]
    generalize (gather t (here ++ [key]) sub).run s = walked
    obtain ⟨walked, s⟩ := walked
    cases full : walked.isEmpty with
    | true =>
      have bare : walked = .nil := by cases walked <;> simp_all [KeyTree.isEmpty]
      rw [bare]
      exact ih rest_keyed rest_passes whole rest_fresh s
    | false =>
      simp only [KeyTree.attach_branch key_fresh full, Bool.false_eq_true, if_false]
      rw [ih rest_keyed rest_passes whole (KeyTree.lacking_setAt _ rest_fresh differ)]
      rw [KeyTree.attach_cons key_fresh]
      rfl

/-- A walk that gets past all leaves gathers the visitor's answers. -/
theorem walk_passes_run {visitor : Visitor (StateM σ)} {wrap : Bool} {start : List String}
    {map : ResolverMap} (keyed : map.Keyed)
    (passes : ∀ x ∈ map.sites [], x.leaf.Passes wrap) (s : σ) :
    (map.walk visitor wrap start).run s =
      (.ok ((gather ⟨visitor, wrap, start, map⟩ [] map).run s).1,
        ((gather ⟨visitor, wrap, start, map⟩ [] map).run s).2) := by
  rw [walk, strictFrom_run keyed passes map (fun _ _ => by simp [KeyTree.branchAt, KeyTree.keys]),
    KeyTree.attach_root]

theorem walk_run (visitor : Visitor (StateM σ)) (start : List String) {map : ResolverMap}
    (keyed : map.Keyed) (s : σ) :
    (map.walk visitor true start).run s =
      (.ok ((gather ⟨visitor, true, start, map⟩ [] map).run s).1,
        ((gather ⟨visitor, true, start, map⟩ [] map).run s).2) :=
  walk_passes_run keyed (fun _ _ => Or.inl rfl) s

/-- A visitor that answers every leaf. While the state is as `inv` says, it stays so, and the answer
to a leaf `l` that is shown as `r` is an `r'` with `P l r'`. -/
def Tour.Always (t : Tour (StateM σ)) (inv : σ → Prop) (P : Leaf → Resolver → Prop) : Prop :=
  ∀ here key l s, inv s →
    inv ((shown l >>= t.ask here key).run s).2 ∧
      ∃ r, ((shown l >>= t.ask here key).run s).1 = some r ∧ P l r

theorem gather_leaf_run (t : Tour (StateM σ)) (here : List String) (key : String) (l : Leaf)
    (rest : ResolverMap) (s : σ) :
    (gather t here (.leaf key l rest)).run s =
      (match ((shown l >>= t.ask here key).run s).1 with
        | some r => .leaf key (.resolver r)
            ((gather t here rest).run ((shown l >>= t.ask here key).run s).2).1
        | none => ((gather t here rest).run ((shown l >>= t.ask here key).run s).2).1,
        ((gather t here rest).run ((shown l >>= t.ask here key).run s).2).2) := rfl

theorem gather_branch_run (t : Tour (StateM σ)) (here : List String) (key : String)
    (sub rest : ResolverMap) (s : σ) :
    (gather t here (.branch key sub rest)).run s =
      (if ((gather t (here ++ [key]) sub).run s).1.isEmpty then
          ((gather t here rest).run ((gather t (here ++ [key]) sub).run s).2).1
        else .branch key ((gather t (here ++ [key]) sub).run s).1
          ((gather t here rest).run ((gather t (here ++ [key]) sub).run s).2).1,
        ((gather t here rest).run ((gather t (here ++ [key]) sub).run s).2).2) := rfl

theorem keys_gather (t : Tour (StateM σ)) (here : List String) (map : ResolverMap) (s : σ) :
    ∀ key ∈ ((gather t here map).run s).1.keys, key ∈ map.keys := by
  induction map generalizing here s with
  | nil => exact fun _ member => member
  | leaf k l rest ih =>
    intro key member
    rw [gather_leaf_run] at member
    simp only [KeyTree.keys, List.mem_cons]
    split at member
    · rcases List.mem_cons.mp member with rfl | member
      · exact Or.inl rfl
      · exact Or.inr (ih _ _ key member)
    · exact Or.inr (ih _ _ key member)
  | branch k sub rest _ ih =>
    intro key member
    rw [gather_branch_run] at member
    simp only [KeyTree.keys, List.mem_cons]
    split at member
    · exact Or.inr (ih _ _ key member)
    · rcases List.mem_cons.mp member with rfl | member
      · exact Or.inl rfl
      · exact Or.inr (ih _ _ key member)

theorem keyed_gather (t : Tour (StateM σ)) (here : List String) {map : ResolverMap}
    (keyed : map.Keyed) (s : σ) : ((gather t here map).run s).1.Keyed := by
  induction map generalizing here s with
  | nil => trivial
  | leaf k l rest ih =>
    rw [gather_leaf_run]
    dsimp only
    split
    · exact ⟨fun member => keyed.1 (keys_gather t here rest _ k member), ih here keyed.2 _⟩
    · exact ih here keyed.2 _
  | branch k sub rest ih_sub ih =>
    rw [gather_branch_run]
    dsimp only
    split
    · exact ih here keyed.2.2 _
    · exact ⟨fun member => keyed.1 (keys_gather t here rest _ k member), ih_sub _ keyed.2.1 _,
        ih here keyed.2.2 _⟩

theorem pruned_gather (t : Tour (StateM σ)) (here : List String) (map : ResolverMap) (s : σ) :
    ((gather t here map).run s).1.Pruned := by
  induction map generalizing here s with
  | nil => trivial
  | leaf k l rest ih =>
    rw [gather_leaf_run]
    dsimp only
    split
    · exact ih here _
    · exact ih here _
  | branch k sub rest ih_sub ih =>
    rw [gather_branch_run]
    dsimp only
    split
    · exact ih here _
    · rename_i full
      exact ⟨by simpa using full, ih_sub _ _, ih here _⟩

theorem gather_inv {t : Tour (StateM σ)} {inv : σ → Prop} {P : Leaf → Resolver → Prop}
    (always : t.Always inv P) (here : List String) (map : ResolverMap) {s : σ} (holds : inv s) :
    inv ((gather t here map).run s).2 := by
  induction map generalizing here s with
  | nil => exact holds
  | leaf k l rest ih => exact ih here (always here k l s holds).1
  | branch k sub rest ih_sub ih => exact ih here (ih_sub _ holds)

/-- What a walk makes of what stands at a path: a leaf gives way to an answer to it. -/
inductive Answered (P : Leaf → Resolver → Prop) : Option Leaf → Option Leaf → Prop
  | nothing : Answered P none none
  | answer {l : Leaf} {r : Resolver} (good : P l r) : Answered P (some l) (some (.resolver r))

theorem Answered.none_iff {P : Leaf → Resolver → Prop} {before after : Option Leaf}
    (answered : Answered P before after) : after = none ↔ before = none := by
  cases answered <;> simp

theorem Answered.some {P : Leaf → Resolver → Prop} {l : Leaf} {after : Option Leaf}
    (answered : Answered P (some l) after) : ∃ r, after = some (.resolver r) ∧ P l r := by
  cases answered with
  | answer good => exact ⟨_, rfl, good⟩

theorem answered_gather {t : Tour (StateM σ)} {inv : σ → Prop} {P : Leaf → Resolver → Prop}
    (always : t.Always inv P) (here : List String) {map : ResolverMap} (keyed : map.Keyed)
    (path : List String) {s : σ} (holds : inv s) :
    Answered P (map.leaf? path) (((gather t here map).run s).1.leaf? path) := by
  induction map generalizing here path s with
  | nil =>
    rw [gather, run_pure, KeyTree.leaf?_nil]
    exact .nothing
  | leaf k l rest ih =>
    cases path with
    | nil => exact .nothing
    | cons key path =>
      obtain ⟨holds, r, asked, good⟩ := always here k l s holds
      rw [gather_leaf_run, asked, KeyTree.leaf?_leaf, KeyTree.leaf?_leaf]
      split
      · split
        · exact .answer good
        · exact .nothing
      · exact ih here keyed.2 (key :: path) holds
  | branch k sub rest ih_sub ih =>
    cases path with
    | nil => exact .nothing
    | cons key path =>
      obtain ⟨fresh, sub_keyed, rest_keyed⟩ := keyed
      have inside := ih_sub (here ++ [k]) sub_keyed path holds
      have later := ih here rest_keyed (key :: path) (gather_inv always (here ++ [k]) sub holds)
      rw [gather_branch_run]
      generalize (gather t (here ++ [k]) sub).run s = walked at inside later ⊢
      rw [KeyTree.leaf?_branch]
      by_cases same : k = key
      · subst k
        rw [if_pos rfl]
        rw [KeyTree.leaf?_of_fresh fresh] at later
        dsimp only
        split
        · rename_i bare
          have bare : walked.1 = .nil := by cases h : walked.1 <;> simp_all [KeyTree.isEmpty]
          rw [bare, KeyTree.leaf?_nil] at inside
          rw [later.none_iff.mpr rfl]
          exact inside
        · rwa [KeyTree.leaf?_branch, if_pos rfl]
      · rw [if_neg same]
        dsimp only
        split
        · exact later
        · rwa [KeyTree.leaf?_branch, if_neg same]

end ResolverMap
end SchemaStitch
