import SchemaStitch.Proofs.ResolverMap.Walk

/-! A strict walk is a walk through a list: it shows the visitor one leaf after another, depth
first, and writes the answers into one growing map. It ends at the first value that it does not
wrap. What it has built by then, or in the end, holds the answers at the places of their leaves. -/
namespace SchemaStitch.ResolverMap

open KeyTree (Site Holds)

variable {σ : Type} [Fresh (StateM σ)]

/-- Calls the visitor for a leaf, with its key, the resolver shown for it, the path of its branch
behind the start and the whole map. An answer takes the place of the leaf. -/
def Tour.visit (t : Tour (StateM σ)) (x : Site Leaf) : StateM σ (Option (Site Leaf)) := do
  let r ← shown x.leaf
  let answer ← t.visitor ⟨x.key, r, t.start ++ x.path, t.root⟩
  return answer.map fun r => ⟨x.path, x.key, .resolver r⟩

/-- What the visitor answers when it is shown leaves one after another. -/
def Tour.answers (t : Tour (StateM σ)) (xs : List (Site Leaf)) : StateM σ (List (Site Leaf)) :=
  xs.filterMapM t.visit

/-- Writes an answer, if there is one, at its place. -/
def write (built : ResolverMap) (answer : Option (Site Leaf)) : ResolverMap :=
  built.writeAll answer.toList

/-- A strict walk through the leaves that are left; answers are written into `built`. -/
def follow (t : Tour (StateM σ)) (built : ResolverMap) :
    List (Site Leaf) → StateM σ (Except Stumble ResolverMap)
  | [] => return .ok built
  | x :: xs =>
    match t.wrap, x.leaf with
    | false, .value v =>
      return .error (.onValue x.key v (t.start ++ x.path) (t.root.branchAt x.path) built)
    | _, _ => do follow t (write built (← t.visit x)) xs

theorem follow_passes {t : Tour (StateM σ)} {x : Site Leaf} (passes : x.leaf.Passes t.wrap)
    (built : ResolverMap) (xs : List (Site Leaf)) :
    follow t built (x :: xs) = t.visit x >>= fun answer => follow t (write built answer) xs := by
  rw [follow]
  split
  · rename_i strict raw
    rw [strict, raw] at passes
    exact absurd passes.wraps (by decide)
  · rfl

theorem follow_stumbles {t : Tour (StateM σ)} {x : Site Leaf} {v : Json} (strict : t.wrap = false)
    (raw : x.leaf = .value v) (built : ResolverMap) (xs : List (Site Leaf)) :
    follow t built (x :: xs) =
      pure (.error (.onValue x.key v (t.start ++ x.path) (t.root.branchAt x.path) built)) := by
  rw [follow]
  split
  · rename_i w _ other
    rw [raw] at other
    cases other
    rfl
  · simp_all

theorem strictFrom_visit {t : Tour (StateM σ)} {l : Leaf} (passes : l.Passes t.wrap)
    (here : List String) (whole built : ResolverMap) (key : String) (rest : ResolverMap) :
    strictFrom t here whole built (.leaf key l rest) = t.visit ⟨here, key, l⟩ >>= fun answer =>
      strictFrom t here whole (write built answer) rest := by
  rw [strictFrom_leaf passes, Tour.visit]
  simp only [Tour.ask, bind_assoc, pure_bind]
  refine bind_congr fun r => bind_congr fun answer => ?_
  cases answer <;> rfl

/-- A walk through a part of a branch, and then through the leaves after it, is a walk through all
these leaves. The branch is the one that the whole map has at its path. -/
theorem strictFrom_follow (t : Tour (StateM σ)) {map : ResolverMap} (keyed : map.Keyed)
    (here : List String) {whole : ResolverMap} (stands : t.root.branchAt here = whole)
    (part : ∀ key e, map.get? key = some e → whole.get? key = some e) (built : ResolverMap)
    (later : List (Site Leaf)) :
    (strictFrom t here whole built map >>= fun
      | .error e => return .error e
      | .ok built => follow t built later) = follow t built (map.sites here ++ later) := by
  induction map generalizing here whole built later with
  | nil => rfl
  | leaf key l rest ih =>
    have rest_part : ∀ k e, rest.get? k = some e → whole.get? k = some e :=
      fun k e found => part k e (KeyTree.get?_behind keyed.1 found (.leaf l))
    rw [KeyTree.sites, List.cons_append]
    rcases l.passes_or_value t.wrap with passes | ⟨strict, v, rfl⟩
    · rw [strictFrom_visit passes, follow_passes passes, bind_assoc]
      exact bind_congr fun answer => ih keyed.2 here stands rest_part _ later
    · rw [follow_stumbles strict rfl, strictFrom, strict, stands]
      rfl
  | branch key sub rest ih_sub ih =>
    obtain ⟨fresh, sub_keyed, rest_keyed⟩ := keyed
    have rest_part : ∀ k e, rest.get? k = some e → whole.get? k = some e :=
      fun k e found => part k e (KeyTree.get?_behind fresh found (.branch sub))
    have sub_stands : t.root.branchAt (here ++ [key]) = sub := by
      rw [KeyTree.branchAt_append, stands, KeyTree.branchAt_single,
        part key (.branch sub) (by simp [KeyTree.get?])]
    -- The leaves behind the branch are, for the walk inside it, leaves that come later.
    rw [KeyTree.sites, List.append_assoc, ← ih_sub sub_keyed _ sub_stands (fun _ _ found => found),
      strictFrom, bind_assoc]
    apply bind_congr
    rintro (e | built)
    · rfl
    · exact ih rest_keyed here stands rest_part built later

theorem walk_follow (visitor : Visitor (StateM σ)) (wrap : Bool) (start : List String)
    {map : ResolverMap} (keyed : map.Keyed) :
    map.walk visitor wrap start =
      follow ⟨visitor, wrap, start, map⟩ .nil (map.sites []) := by
  have all := strictFrom_follow ⟨visitor, wrap, start, map⟩ keyed [] rfl
    (fun _ _ found => found) .nil []
  rw [List.append_nil] at all
  rw [← all, walk, ← bind_pure (strictFrom _ _ _ _ _)]
  apply bind_congr
  rintro (e | built) <;> rfl

theorem answers_cons (t : Tour (StateM σ)) (x : Site Leaf) (xs : List (Site Leaf)) :
    t.answers (x :: xs) = t.visit x >>= fun answer => t.answers xs >>= fun answers =>
      pure (answer.toList ++ answers) := by
  rw [Tour.answers, List.filterMapM_cons]
  apply bind_congr
  rintro (_ | y)
  · simp [Tour.answers]
  · rfl

/-- While it gets past all leaves, a walk writes one answer after another. -/
theorem follow_append {t : Tour (StateM σ)} {before : List (Site Leaf)}
    (passes : ∀ x ∈ before, x.leaf.Passes t.wrap) (built : ResolverMap) (later : List (Site Leaf)) :
    follow t built (before ++ later) =
      t.answers before >>= fun answers => follow t (built.writeAll answers) later := by
  induction before generalizing built with
  | nil => rfl
  | cons x before ih =>
    rw [List.cons_append, follow_passes (passes x List.mem_cons_self), answers_cons, bind_assoc]
    refine bind_congr fun answer => ?_
    rw [ih fun y member => passes y (List.mem_cons_of_mem _ member), bind_assoc]
    refine bind_congr fun answers => ?_
    rw [pure_bind, KeyTree.writeAll_append]
    rfl

theorem places_visit (t : Tour (StateM σ)) (x : Site Leaf) (s : σ) :
    ((((t.visit x).run s).1.toList).map Site.place).Sublist [x.place] := by
  simp only [Tour.visit, run_bind, run_pure]
  generalize StateT.run (t.visitor _) _ = asked
  obtain ⟨_ | answer, s⟩ := asked
  · exact List.nil_sublist _
  · exact List.Sublist.refl _

theorem places_answers (t : Tour (StateM σ)) (xs : List (Site Leaf)) (s : σ) :
    (((t.answers xs).run s).1.map Site.place).Sublist (xs.map Site.place) := by
  induction xs generalizing s with
  | nil => exact List.Sublist.refl _
  | cons x xs ih =>
    rw [answers_cons]
    simp only [run_bind, run_pure, List.map_append, List.map_cons]
    exact (places_visit t x s).append (ih _)

/-- How a strict walk from a state ends. -/
inductive Walked (t : Tour (StateM σ)) (s : σ) : Except Stumble ResolverMap × σ → Prop
  /-- The visitor was shown all leaves, and the map holds its answers. -/
  | through {out : ResolverMap} (passes : ∀ x ∈ t.root.sites [], x.leaf.Passes t.wrap)
      (holds : Holds [] t.root ((t.answers (t.root.sites [])).run s).1 out) :
      Walked t s (.ok out, ((t.answers (t.root.sites [])).run s).2)
  /-- The visitor was shown the leaves before the first value, and the map built by then holds its
  answers. -/
  | stumbled {before after : List (Site Leaf)} {x : Site Leaf} {v : Json} {built : ResolverMap}
      (strict : t.wrap = false) (leaves : t.root.sites [] = before ++ x :: after)
      (resolvers : ∀ y ∈ before, y.leaf.isResolver = true) (raw : x.leaf = .value v)
      (holds : Holds [] t.root ((t.answers before).run s).1 built) :
      Walked t s (.error ⟨x.key, v.render, t.start ++ x.path,
        "leaf is neither a resolver nor a nested map", t.root.branchAt x.path, built, none⟩,
        ((t.answers before).run s).2)

/-- Either all leaves pass or there is a first one that does not. -/
theorem first_value (wrap : Bool) (xs : List (Site Leaf)) :
    (∀ x ∈ xs, x.leaf.Passes wrap) ∨
      ∃ before x after v, xs = before ++ x :: after ∧ wrap = false ∧ x.leaf = .value v ∧
        ∀ y ∈ before, y.leaf.isResolver = true := by
  induction xs with
  | nil => exact Or.inl fun _ member => absurd member List.not_mem_nil
  | cons x xs ih =>
    rcases x.leaf.passes_or_value wrap with passes | ⟨strict, v, raw⟩
    · rcases ih with all | ⟨before, y, after, v, rfl, strict, raw, resolvers⟩
      · exact Or.inl (List.forall_mem_cons.mpr ⟨passes, all⟩)
      · have resolver := passes.resolve_left (by simp [strict])
        exact Or.inr ⟨x :: before, y, after, v, rfl, strict, raw,
          List.forall_mem_cons.mpr ⟨resolver, resolvers⟩⟩
    · exact Or.inr ⟨[], x, xs, v, rfl, strict, raw,
        fun _ member => absurd member List.not_mem_nil⟩

theorem walked {t : Tour (StateM σ)} (keyed : t.root.Keyed) (s : σ) :
    Walked t s ((follow t .nil (t.root.sites [])).run s) := by
  rcases first_value t.wrap (t.root.sites []) with
    passes | ⟨before, x, after, v, leaves, strict, raw, resolvers⟩
  · have whole := follow_append passes .nil []
    rw [List.append_nil] at whole
    rw [whole]
    exact .through passes (KeyTree.holds_writeAll keyed (places_answers t _ s))
  · have passes : ∀ y ∈ before, y.leaf.Passes t.wrap :=
      fun y member => Or.inr (resolvers y member)
    have reached : (((t.answers before).run s).1.map Site.place).Sublist
        ((t.root.sites []).map Site.place) := by
      rw [leaves, List.map_append]
      exact (places_answers t before s).trans (List.sublist_append_left _ _)
    rw [leaves, follow_append passes]
    simp only [follow_stumbles strict raw]
    exact .stumbled strict leaves resolvers raw (KeyTree.holds_writeAll keyed reached)

theorem Walked.fails_iff {t : Tour (StateM σ)} {s : σ} {ending : Except Stumble ResolverMap × σ}
    (walked : Walked t s ending) :
    (∃ e, ending.1 = .error e) ↔
      t.wrap = false ∧ ∃ x ∈ t.root.sites [], ∃ v, x.leaf = .value v := by
  cases walked with
  | through passes _ =>
    constructor
    · rintro ⟨e, failed⟩
      cases failed
    · rintro ⟨strict, x, member, v, raw⟩
      have wraps := passes x member
      rw [raw] at wraps
      exact absurd wraps.wraps (by simp [strict])
  | @stumbled before after x v _ strict leaves _ raw _ =>
    have member : x ∈ t.root.sites [] := by simp [leaves]
    exact ⟨fun _ => ⟨strict, x, member, v, raw⟩, fun _ => ⟨_, rfl⟩⟩

/-- A strict walk is a filter map over the leaves of a map, wherever it starts. It fails if and only
if it comes upon a value that it does not wrap, and the error tells the first one. -/
theorem walk_filters_leaves (visitor : Visitor (StateM σ)) (wrap : Bool) (start : List String)
    {map : ResolverMap} (keyed : map.Keyed) (s : σ) :
    Walked ⟨visitor, wrap, start, map⟩ s ((map.walk visitor wrap start).run s) ∧
      ((∃ e, ((map.walk visitor wrap start).run s).1 = .error e) ↔
        wrap = false ∧ ∃ x ∈ map.sites [], ∃ v, x.leaf = .value v) := by
  rw [walk_follow visitor wrap start keyed]
  have walked := walked (t := ⟨visitor, wrap, start, map⟩) keyed s
  exact ⟨walked, walked.fails_iff⟩

/-- The identity to draw next and the visits made so far, in their order. -/
structure Journal where
  next : Nat
  visits : List Visit

instance : Fresh (StateM Journal) :=
  ⟨modifyGet fun j => (j.next, { j with next := j.next + 1 })⟩

/-- Notes every visit and keeps every other resolver, the first one included. -/
def everyOther : Visitor (StateM Journal) := fun v => modifyGet fun j =>
  (if j.visits.length % 2 = 0 then some v.resolver else none, { j with visits := j.visits ++ [v] })

/-- A resolver that nothing stands around. -/
def plain : Resolver := .function ⟨7, .info, none⟩ Resolver.readParent

/-- Branches in a branch, and a value between resolvers. -/
def nested : ResolverMap :=
  .branch "Query"
    (.leaf "a" (.resolver plain)
      (.branch "deep" (.leaf "b" (.resolver plain) (.leaf "c" (.value (.string "raw")) .nil))
        (.branch "flat" (.leaf "d" (.resolver plain) .nil) .nil)))
    (.leaf "e" (.resolver plain) .nil)

/-- A resolver that answers the value in `nested`. -/
def raw : Resolver := .function ⟨8, .info, some "raw"⟩ fun _ => return .ok (.string "raw")

/-- Walks through `nested` behind a path of one key. -/
def journey (wrap : Bool) : Except Stumble ResolverMap × Journal :=
  (nested.walk everyOther wrap ["start"]).run ⟨8, []⟩

/-- Without wrapping the walk ends before the value `c`. With wrapping it shows a resolver for `c`
and goes on, and the branch `flat` goes with its only leaf. -/
theorem walk_filters_leaves_nested :
    nested.Keyed ∧ Walked ⟨everyOther, false, ["start"], nested⟩ ⟨8, []⟩ (journey false) ∧
      (∃ e, (journey false).1 = .error e) ∧
      (journey false).2.visits = [⟨"a", plain, ["start", "Query"], nested⟩,
        ⟨"b", plain, ["start", "Query", "deep"], nested⟩] ∧
      Walked ⟨everyOther, true, ["start"], nested⟩ ⟨8, []⟩ (journey true) ∧
      (¬ ∃ e, (journey true).1 = .error e) ∧
      (journey true).1 = .ok (.branch "Query"
        (.leaf "a" (.resolver plain) (.branch "deep" (.leaf "c" (.resolver raw) .nil) .nil))
        (.leaf "e" (.resolver plain) .nil)) ∧
      (journey true).2.visits = [⟨"a", plain, ["start", "Query"], nested⟩,
        ⟨"b", plain, ["start", "Query", "deep"], nested⟩,
        ⟨"c", raw, ["start", "Query", "deep"], nested⟩,
        ⟨"d", plain, ["start", "Query", "flat"], nested⟩, ⟨"e", plain, ["start"], nested⟩] := by
  have keyed : nested.Keyed := by simp [nested, KeyTree.Keyed, KeyTree.keys]
  have value : ⟨["Query", "deep"], "c", .value (.string "raw")⟩ ∈ nested.sites [] := by
    simp [nested, KeyTree.sites]
  obtain ⟨strictly, fails⟩ := walk_filters_leaves everyOther false ["start"] keyed ⟨8, []⟩
  obtain ⟨wrapping, fails_wrapping⟩ := walk_filters_leaves everyOther true ["start"] keyed ⟨8, []⟩
  have stumbles : ∃ e, (journey false).1 = .error e := fails.mpr ⟨rfl, _, value, _, rfl⟩
  have passes : ¬ ∃ e, (journey true).1 = .error e :=
    fun failed => Bool.noConfusion (fails_wrapping.mp failed).1
  exact ⟨keyed, strictly, stumbles, rfl, wrapping, passes, rfl, rfl⟩

end SchemaStitch.ResolverMap
