import Mathlib.Data.List.Forall2
import SchemaStitch.Proofs.ResolverMap.Walk

/-! A lenient walk does what a strict one does where no value is in the way. Otherwise it does so on
the map without the branches that directly hold a value, and it reports those that it comes to,
inner before outer. -/
namespace SchemaStitch.ResolverMap

variable {σ : Type} [Fresh (StateM σ)]

/-- The first value among the entries of a map itself, with its key. -/
def firstValue? : ResolverMap → Option (String × Json)
  | .nil => none
  | .leaf key (.value v) _ => some (key, v)
  | .leaf _ (.resolver _) rest => firstValue? rest
  | .branch _ _ rest => firstValue? rest

/-- A map without its branches, at any depth, that directly hold a value. -/
def cleared : ResolverMap → ResolverMap
  | .nil => .nil
  | .leaf key l rest => .leaf key l (cleared rest)
  | .branch key sub rest =>
    if (firstValue? sub).isSome then cleared rest else .branch key (cleared sub) (cleared rest)

/-- A branch with the path and the map of its parent and its key. -/
structure Branch where
  path : List String
  parent : ResolverMap
  key : String
  map : ResolverMap

/-- A branch seen from outside of the branch that it stands in. -/
def Branch.under (key : String) (b : Branch) : Branch := { b with path := key :: b.path }

/-- Whether no value stands before a key. -/
def clearTo (key : String) : ResolverMap → Bool
  | .nil => true
  | .leaf k l rest => k = key || l.isResolver && clearTo key rest
  | .branch k _ rest => k = key || clearTo key rest

/-- Whether no value stands before a key of a path, in the branch that the keys before it lead
to. -/
def reaches : List String → ResolverMap → Bool
  | [], _ => true
  | key :: path, map => clearTo key map && reaches path (map.branchAt [key])

/-- The report on a branch that holds a value: its cause is the branch's first value. -/
inductive Skipped (start : List String) : Branch → Stumble → Prop
  | intro (b : Branch) {key : String} {v : Json} (first : firstValue? b.map = some (key, v))
      (built done : ResolverMap) :
      Skipped start b (.onBranch b.key b.map (start ++ b.path) b.parent built
        (.onValue key v (start ++ b.path ++ [b.key]) b.map done))

theorem Skipped.under {start : List String} {key : String} {b : Branch} {e : Stumble}
    (skipped : Skipped (start ++ [key]) b e) : Skipped start (b.under key) e := by
  cases skipped with
  | intro first built done =>
    have path : start ++ [key] ++ b.path = start ++ (b.under key).path :=
      List.append_assoc start [key] b.path
    rw [path]
    exact .intro (b.under key) first built done

/-- Writes an entry, if there is one. -/
def put (built : ResolverMap) (key : String) : Option (KeyTree.Entry Leaf) → ResolverMap
  | some e => built.insert key e
  | none => built

theorem put_append {built : ResolverMap} {key : String} (fresh : key ∉ built.keys)
    (e : Option (KeyTree.Entry Leaf)) (out : ResolverMap) :
    (put built key e).append out =
      built.append (match e with | some e => KeyTree.cons key e out | none => out) := by
  cases e with
  | none => rfl
  | some e => exact KeyTree.insert_append fresh e out

/-- What becomes of a branch. -/
def kept (walked : ResolverMap) : Option (KeyTree.Entry Leaf) :=
  if walked.isEmpty then none else some (.branch walked)

theorem put_kept_append {built : ResolverMap} {key : String} (fresh : key ∉ built.keys)
    (walked out : ResolverMap) :
    (put built key (kept walked)).append out =
      built.append (if walked.isEmpty then out else .branch key walked out) := by
  rw [put_append fresh]
  cases full : walked.isEmpty <;> simp [kept, full, KeyTree.cons]

theorem resolvers_cleared {map : ResolverMap} (free : firstValue? map = none)
    (here : List String) : ∀ x ∈ (cleared map).sites here, x.leaf.isResolver = true := by
  induction map generalizing here with
  | nil => exact fun _ member => absurd member List.not_mem_nil
  | leaf key l rest ih =>
    cases l with
    | resolver r => exact List.forall_mem_cons.mpr ⟨rfl, ih free here⟩
    | value v => cases free
  | branch key sub rest ih_sub ih =>
    rw [cleared]
    split
    · exact ih free here
    · rename_i clear
      have sub_free : firstValue? sub = none := by simpa using clear
      exact List.forall_mem_append.mpr ⟨ih_sub sub_free _, ih free here⟩

/-- A visitor that leaves the state alone. -/
def Tour.Silent (t : Tour (StateM σ)) : Prop :=
  ∀ here key r, ∃ answer, t.ask here key r = pure answer

theorem gather_silent {t : Tour (StateM σ)} (silent : t.Silent) {here : List String}
    {map : ResolverMap} (resolvers : ∀ x ∈ map.sites here, x.leaf.isResolver = true) (s : σ) :
    ((gather t here map).run s).2 = s := by
  induction map generalizing here with
  | nil => rfl
  | leaf key l rest ih =>
    obtain ⟨resolver, rest_resolvers⟩ := List.forall_mem_cons.mp resolvers
    cases l with
    | value v => cases resolver
    | resolver r =>
      obtain ⟨answer, asked⟩ := silent here key r
      have same : shown (σ := σ) (.resolver r) >>= t.ask here key = pure answer := asked
      rw [gather_leaf_run, same]
      exact ih rest_resolvers
  | branch key sub rest ih_sub ih =>
    obtain ⟨sub_resolvers, rest_resolvers⟩ := List.forall_mem_append.mp resolvers
    rw [gather_branch_run, ih_sub sub_resolvers]
    exact ih rest_resolvers

/-- How a lenient walk through a part of a branch ends, when the visitor leaves the state alone. -/
def Ended (t : Tour (StateM σ)) (here : List String) (whole built map : ResolverMap) (s : σ)
    (result : Except Stumble ResolverMap) : Prop :=
  match firstValue? map with
  | none => result = .ok (built.append ((gather t here (cleared map)).run s).1)
  | some (key, v) => ∃ done, result = .error (.onValue key v (t.start ++ here) whole done)

section
variable {t : Tour (StateM σ)} {here : List String} {whole built sub rest : ResolverMap} {s : σ}
  {result : Except Stumble ResolverMap} {key : String}

theorem Ended.leaf {r : Resolver} {answer : Option Resolver} (fresh : key ∉ built.keys)
    (asked : t.ask here key r = pure answer)
    (ended : Ended t here whole (put built key (answer.map entry)) rest s result) :
    Ended t here whole built (.leaf key (.resolver r) rest) s result := by
  have same : shown (σ := σ) (.resolver r) >>= t.ask here key = pure answer := asked
  rw [Ended, put_append fresh] at ended
  rw [Ended, firstValue?, cleared, gather_leaf_run, same]
  cases answer <;> exact ended

theorem Ended.skip (raw : (firstValue? sub).isSome = true)
    (ended : Ended t here whole built rest s result) :
    Ended t here whole built (.branch key sub rest) s result := by
  rwa [Ended, firstValue?, cleared, if_pos raw]

theorem Ended.branch (silent : t.Silent) (fresh : key ∉ built.keys)
    (clear : firstValue? sub = none) (ended : Ended t here whole
      (put built key (kept ((gather t (here ++ [key]) (cleared sub)).run s).1)) rest s result) :
    Ended t here whole built (.branch key sub rest) s result := by
  rw [Ended, put_kept_append fresh] at ended
  rwa [Ended, firstValue?, cleared, if_neg (by simp [clear]), gather_branch_run,
    gather_silent silent (resolvers_cleared clear _)]

theorem Ended.fails_iff (ended : Ended t here whole built rest s result) :
    (∃ e, result = .error e) ↔ (firstValue? rest).isSome = true := by
  cases first : firstValue? rest with
  | none =>
    rw [Ended, first] at ended
    simp [ended]
  | some found =>
    rw [Ended, first] at ended
    obtain ⟨done, rfl⟩ := ended
    simp

end

end SchemaStitch.ResolverMap
