import SchemaStitch.Proofs.Bundle.Merging

/-! Which resolvers a tree of merges ends with. A merge lays the maps of its two sides over all that
either side took in before, so what stands at a path is what the last contributor with a leaf there
has, however the merges were nested. -/
namespace SchemaStitch
open Sdl

namespace KeyTree

variable {α : Type}

/-- On the way to a leaf there are branches. -/
theorem branch_of_leaf? {t : KeyTree α} {path other : List String} {v : α}
    (found : t.leaf? other = some v) (before : path <+: other) (within : path ≠ other)
    (below : path ≠ []) : ∃ sub, t.find? path = some (.branch sub) := by
  induction path generalizing t other with
  | nil => exact absurd rfl below
  | cons key path ih =>
    obtain ⟨rest, rfl⟩ := before
    rw [List.cons_append, leaf?_eq_bind] at found
    obtain ⟨e, stands, found⟩ := Option.bind_eq_some_iff.mp found
    rw [find?_eq_bind, stands, Option.bind_some]
    cases e with
    | leaf w =>
      rw [Entry.leaf?] at found
      split at found
      · rename_i ended
        have ended : path = [] ∧ rest = [] := by simpa using ended
        simp [ended] at within
      · contradiction
    | branch sub =>
      cases path with
      | nil => exact ⟨sub, rfl⟩
      | cons next path =>
        have deeper : next :: path ≠ next :: path ++ rest := by simpa using within
        exact ih found (List.prefix_append _ rest) deeper (by simp)

end KeyTree

namespace Bundle

/-- What the merges of a tree make of its contributors, which are listed in order. Contributors have
no history; every merge has options of its own, but fills no gaps. -/
inductive Grown : List Bundle → Bundle → Prop
  | contributor {b : Bundle} (reached : b.Reached) (history : b.history = []) : Grown [b] b
  | merge {σ : Type} {o : MergeOptions (StateM σ)} {ls rs : List Bundle}
      {left right merged : Bundle} {next : Nat} (off : o.createMissing = false)
      (before : Grown ls left) (beside : Grown rs right)
      (merges : MergesTo o left right next merged) : Grown (ls ++ rs) merged

/-- Whether bundles hold resolvers only, none of them where another one has a branch. -/
structure Harmonious (cs : List Bundle) : Prop where
  resolvers : ∀ c ∈ cs, ∀ path l, c.map.leaf? path = some l → ∃ r, l = .resolver r
  apart : ∀ c ∈ cs, ∀ d ∈ cs, ∀ path l sub, c.map.leaf? path = some l →
    d.map.find? path ≠ some (.branch sub)

/-- The leaf at a path that the last of some bundles has that have one. -/
def last? (cs : List Bundle) (path : List String) : Option Leaf :=
  cs.reverse.findSome? (·.map.leaf? path)

/-- The resolver at a path without what merges have put around it. -/
def unmerged? (b : Bundle) (path : List String) : Option Resolver :=
  ((b.map.leaf? path).bind Leaf.resolver?).map Resolver.unmerged

theorem last?_append (ls rs : List Bundle) (path : List String) :
    last? (ls ++ rs) path = (last? rs path).or (last? ls path) := by
  rw [last?, List.reverse_append, List.findSome?_append]
  rfl

theorem last?_append_ne_none {ls rs : List Bundle} {path : List String} :
    last? (ls ++ rs) path ≠ none ↔ last? ls path ≠ none ∨ last? rs path ≠ none := by
  rw [last?_append, ne_eq, Option.or_eq_none_iff]
  tauto

theorem last?_eq_none {cs : List Bundle} {path : List String} :
    last? cs path = none ↔ ∀ c ∈ cs, c.map.leaf? path = none := by
  simp [last?]

theorem mem_of_last? {cs : List Bundle} {path : List String} {l : Leaf}
    (last : last? cs path = some l) : ∃ c ∈ cs, c.map.leaf? path = some l := by
  obtain ⟨c, member, found⟩ := List.exists_of_findSome?_eq_some last
  exact ⟨c, List.mem_reverse.mp member, found⟩

theorem last?_of_after {before after : List Bundle} {c : Bundle} {path : List String} {l : Leaf}
    (found : c.map.leaf? path = some l) (silent : ∀ d ∈ after, d.map.leaf? path = none) :
    last? (before ++ c :: after) path = some l := by
  have split : c :: after = [c] ++ after := rfl
  rw [last?_append, split, last?_append, last?_eq_none.mpr silent]
  simp [last?, found]

theorem Harmonious.of_subset {cs ds : List Bundle} (harmonious : Harmonious cs) (inside : ds ⊆ cs) :
    Harmonious ds :=
  ⟨fun c member => harmonious.resolvers c (inside member),
    fun c c_member d d_member => harmonious.apart c (inside c_member) d (inside d_member)⟩

/-- Leaves on the way to each other stand at one path. -/
theorem Harmonious.same_path {cs : List Bundle} (harmonious : Harmonious cs) {c d : Bundle}
    (c_member : c ∈ cs) (d_member : d ∈ cs) {path other : List String} {l w : Leaf}
    (found : c.map.leaf? path = some l) (stands : d.map.leaf? other = some w)
    (before : path <+: other) : path = other := by
  by_contra within
  have below : path ≠ [] := by
    rintro rfl
    simp at found
  obtain ⟨sub, branch⟩ := KeyTree.branch_of_leaf? stands before within below
  exact harmonious.apart c c_member d d_member path l sub found branch

theorem Grown.reached {cs : List Bundle} {b : Bundle} (grown : Grown cs b) : b.Reached := by
  induction grown with
  | contributor reached _ => exact reached
  | merge _ _ _ merges before beside => exact before.merge beside merges

/-- A leaf of the map of a tree, or of any map that its merges took in, is one of a contributor. -/
theorem Grown.leaf_origin {cs : List Bundle} {b : Bundle} (grown : Grown cs b) :
    (∀ path, b.map.leaf? path ≠ none → last? cs path ≠ none) ∧
      ∀ s ∈ b.history, ∀ path, s.resolvers.leaf? path ≠ none → last? cs path ≠ none := by
  induction grown with
  | @contributor b reached history =>
    refine ⟨fun path found => ?_, by simp [history]⟩
    simpa [last?] using found
  | @merge σ o ls rs left right merged next off before beside merges left_ih right_ih =>
    obtain ⟨l, r, joined⟩ := of_merge before.reached.sound beside.reached.sound merges
    simp only [last?_append_ne_none]
    have history : ∀ s ∈ merged.history, ∀ path, s.resolvers.leaf? path ≠ none →
        last? ls path ≠ none ∨ last? rs path ≠ none := by
      rw [joined.history]
      refine forall_joined (fun s member path found => Or.inl (left_ih.2 s member path found))
        (fun s member path found => Or.inr (right_ih.2 s member path found)) ?_ ?_
      · intro path found
        refine Or.inl (left_ih.1 path ?_)
        rwa [ne_eq, ← joined.left_stripped.none_iff path]
      · intro path found
        refine Or.inr (right_ih.1 path ?_)
        rwa [ne_eq, ← joined.right_stripped.none_iff path]
    refine ⟨fun path found => ?_, history⟩
    rw [ne_eq, joined.stitched.none_iff off] at found
    obtain ⟨leaf, stands⟩ := Option.ne_none_iff_exists'.mp found
    have sound := (before.reached.sound.merge beside.reached.sound merges).history
    obtain ⟨s, member, own⟩ := Snapshot.leaf?_foldAll sound stands
    exact history s member path (by simp [own])

/-- What the last contributor with a leaf at a path has there stands there in the end. -/
theorem Grown.last_stands {cs : List Bundle} {b : Bundle} (grown : Grown cs b)
    (harmonious : Harmonious cs) {path : List String} {own : Resolver}
    (last : last? cs path = some (.resolver own)) :
    ∃ r, b.map.leaf? path = some (.resolver r) ∧ r.unmerged = own.unmerged := by
  induction grown generalizing path own with
  | @contributor b reached history =>
    refine ⟨own, ?_, rfl⟩
    simpa [last?] using last
  | @merge σ o ls rs left right merged next off before beside merges left_ih right_ih =>
    obtain ⟨l, r, joined⟩ := of_merge before.reached.sound beside.reached.sound merges
    rw [last?_append] at last
    cases later : last? rs path with
    | some leaf =>
      rw [later, Option.some_or, Option.some.injEq] at last
      subst leaf
      have inside := harmonious.of_subset (List.subset_append_right ls rs)
      obtain ⟨inner, stands, same⟩ := right_ih inside later
      obtain ⟨outer, found, again⟩ := joined.right_stands off stands
      exact ⟨outer, found, again.trans same⟩
    | none =>
      rw [later, Option.none_or] at last
      have inside := harmonious.of_subset (List.subset_append_left ls rs)
      obtain ⟨inner, stands, same⟩ := left_ih inside last
      obtain ⟨c, c_member, c_found⟩ := mem_of_last? last
      -- a leaf of the right side near this path would be one of a contributor, so at this very path
      have free : right.map.Free path := by
        intro other near
        by_contra taken
        obtain ⟨w, w_last⟩ := Option.ne_none_iff_exists'.mp (beside.leaf_origin.1 other taken)
        obtain ⟨d, d_member, d_found⟩ := mem_of_last? w_last
        have c_inside : c ∈ ls ++ rs := List.mem_append_left _ c_member
        have d_inside : d ∈ ls ++ rs := List.mem_append_right _ d_member
        have here : other = path := near.elim
          (harmonious.same_path d_inside c_inside d_found c_found)
          (fun beyond => (harmonious.same_path c_inside d_inside c_found d_found beyond).symm)
        rw [here, later] at w_last
        contradiction
      obtain ⟨outer, found, again⟩ := joined.left_stands off stands free
      exact ⟨outer, found, again.trans same⟩

theorem Grown.unmerged?_eq {cs : List Bundle} {b : Bundle} (grown : Grown cs b)
    (harmonious : Harmonious cs) (path : List String) :
    b.unmerged? path = ((last? cs path).bind Leaf.resolver?).map Resolver.unmerged := by
  cases last : last? cs path with
  | none =>
    have nothing : b.map.leaf? path = none := by
      by_contra found
      exact grown.leaf_origin.1 path found last
    rw [unmerged?, nothing]
  | some l =>
    obtain ⟨c, member, found⟩ := mem_of_last? last
    obtain ⟨own, rfl⟩ := harmonious.resolvers c member path l found
    obtain ⟨r, stands, same⟩ := grown.last_stands harmonious last
    simp [unmerged?, stands, Leaf.resolver?, same]

/-- A tree of merges has a leaf where some contributor has one, and there it has, up to what merges
put around it, the resolver of the last contributor that has one. So two trees over the same
contributors in the same order agree. -/
theorem tree_binds_last {cs : List Bundle} {b : Bundle} (grown : Grown cs b)
    (harmonious : Harmonious cs) (path : List String) :
    (b.map.leaf? path ≠ none ↔ ∃ c ∈ cs, c.map.leaf? path ≠ none) ∧
      (∀ before c after, cs = before ++ c :: after → c.map.leaf? path ≠ none →
        (∀ d ∈ after, d.map.leaf? path = none) →
        ∃ own r, c.map.leaf? path = some (.resolver own) ∧
          b.map.leaf? path = some (.resolver r) ∧ r.unmerged = own.unmerged) ∧
      ∀ other, Grown cs other → other.unmerged? path = b.unmerged? path := by
  refine ⟨⟨fun found => ?_, fun ⟨c, member, found⟩ => ?_⟩, ?_, fun other also => ?_⟩
  · have last := grown.leaf_origin.1 path found
    simpa [last?_eq_none] using last
  · have some_last : last? cs path ≠ none := fun none_last =>
      found (last?_eq_none.mp none_last c member)
    obtain ⟨l, last⟩ := Option.ne_none_iff_exists'.mp some_last
    obtain ⟨d, d_member, d_found⟩ := mem_of_last? last
    obtain ⟨own, rfl⟩ := harmonious.resolvers d d_member path l d_found
    obtain ⟨r, stands, _⟩ := grown.last_stands harmonious last
    simp [stands]
  · rintro before c after rfl found silent
    obtain ⟨l, leaf⟩ := Option.ne_none_iff_exists'.mp found
    obtain ⟨own, rfl⟩ := harmonious.resolvers c (by simp) path l leaf
    obtain ⟨r, stands, same⟩ := grown.last_stands harmonious (last?_of_after leaf silent)
    exact ⟨own, r, leaf, stands, same⟩
  · rw [also.unmerged?_eq harmonious, grown.unmerged?_eq harmonious]

/-- The map with one resolver, in the branch of a type. -/
def single (type field : Name) (id : Nat) : ResolverMap :=
  .branch type (.leaf field (.resolver (plainResolver id)) .nil) .nil

/-- Maps with one resolver have branches for types and resolvers for fields only. -/
theorem harmonious_of_single {cs : List Bundle}
    (all : ∀ c ∈ cs, ∃ type field id, c.map = single type field id) : Harmonious cs := by
  have leaf {type field : Name} {id : Nat} {path : List String} {l : Leaf}
      (found : (single type field id).leaf? path = some l) :
      path = [type, field] ∧ l = .resolver (plainResolver id) := by
    rcases path with _ | ⟨key, _ | ⟨next, rest⟩⟩
    · simp at found
    · simp [single, KeyTree.leaf?_branch] at found
    · simp only [single, KeyTree.leaf?_branch, KeyTree.leaf?_leaf, KeyTree.leaf?_nil] at found
      split at found <;> simp_all
  refine ⟨fun c member path l found => ?_, fun c c_member d d_member path l sub found branch => ?_⟩
  · obtain ⟨type, field, id, same⟩ := all c member
    rw [same] at found
    exact ⟨_, (leaf found).2⟩
  · obtain ⟨type, field, id, same⟩ := all c c_member
    obtain ⟨other, below, own, also⟩ := all d d_member
    rw [same] at found
    obtain ⟨rfl, _⟩ := leaf found
    by_cases here : other = type <;> by_cases there : below = field <;>
      simp [also, single, KeyTree.find?_eq_bind, KeyTree.get?, KeyTree.Entry.find?, here,
        there] at branch

theorem tree_binds_last_three :
    ∃ (cs : List Bundle) (b other : Bundle), cs.length = 3 ∧ Grown cs b ∧ Grown cs other ∧
      Harmonious cs ∧ other.unmerged? ["Query", "a"] = b.unmerged? ["Query", "a"] ∧
      ∃ r, b.map.leaf? ["Query", "a"] = some (.resolver r) ∧ r.unmerged.tag.id = 2 := by
  let contributor (id : Nat) := ofText "type Query { a: String }" (single "Query" "a" id)
  have grown (id : Nat) : Grown [contributor id] (contributor id) := by
    refine .contributor (reached_ofText _ _ (by decide +kernel) rfl ?_ rfl) rfl
    simp [single, KeyTree.Keyed, KeyTree.keys]
  have harmonious : Harmonious [contributor 0, contributor 1, contributor 2] := by
    refine harmonious_of_single fun c member => ?_
    simp only [List.mem_cons, List.not_mem_nil, or_false] at member
    rcases member with rfl | rfl | rfl <;> exact ⟨_, _, _, rfl⟩
  have left_first : ((((merge plainOptions (contributor 0) (contributor 1)).run 3).run
      ()).1.1.toOption.any fun first => (((merge plainOptions first (contributor 2)).run 9).run
      ()).1.1.toOption.any fun _ => true) = true := by decide +kernel
  have right_first : ((((merge plainOptions (contributor 1) (contributor 2)).run 3).run
      ()).1.1.toOption.any fun first => (((merge plainOptions (contributor 0) first).run 9).run
      ()).1.1.toOption.any fun _ => true) = true := by decide +kernel
  obtain ⟨ab, first, left_first⟩ := ok_of_any left_first
  obtain ⟨b, second, _⟩ := ok_of_any left_first
  obtain ⟨bc, inner, right_first⟩ := ok_of_any right_first
  obtain ⟨other, outer, _⟩ := ok_of_any right_first
  have left_grown : Grown [contributor 0, contributor 1, contributor 2] b :=
    .merge rfl (.merge rfl (grown 0) (grown 1) ⟨(), first⟩) (grown 2) ⟨(), second⟩
  have right_grown : Grown [contributor 0, contributor 1, contributor 2] other :=
    .merge rfl (grown 0) (.merge rfl (grown 1) (grown 2) ⟨(), inner⟩) ⟨(), outer⟩
  obtain ⟨_, last, same⟩ := tree_binds_last left_grown harmonious ["Query", "a"]
  have leaf : (contributor 2).map.leaf? ["Query", "a"] = some (.resolver (plainResolver 2)) := rfl
  obtain ⟨own, r, own_leaf, stands, unmerged⟩ :=
    last [contributor 0, contributor 1] (contributor 2) [] rfl (by simp [leaf]) (by simp)
  cases leaf.symm.trans own_leaf
  exact ⟨_, b, other, rfl, left_grown, right_grown, harmonious, same other right_grown, r, stands,
    by rw [unmerged]; rfl⟩

end Bundle
end SchemaStitch
