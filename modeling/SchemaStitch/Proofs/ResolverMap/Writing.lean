import SchemaStitch.Proofs.ResolverMap.Paths

/-! Writing an entry at a path. The entry stands there afterwards, the way to it leads through
branches, paths that lie apart answer as before, and of two writes at one place the later one is
left. -/
namespace SchemaStitch

namespace KeyTree

variable {α : Type}

theorem get?_setAt_cons (t : KeyTree α) (key : String) (e : Entry α) (segment : String)
    (path : List String) (other : String) :
    (t.setAt key e (segment :: path)).1.get? other =
      if segment = other then some (.branch ((t.branchAt [segment]).setAt key e path).1)
      else t.get? other := by
  rw [setAt, within_eq_insert, get?_insert]

/-- The branch on the way to a write has the rest of the write done in it. -/
theorem branchAt_setAt (t : KeyTree α) (key : String) (e : Entry α) (segment : String)
    (path : List String) :
    (t.setAt key e (segment :: path)).1.branchAt [segment] =
      ((t.branchAt [segment]).setAt key e path).1 := by
  rw [branchAt_single, get?_setAt_cons, if_pos rfl]

theorem keys_setAt (t : KeyTree α) (key : String) (e : Entry α) (segment : String)
    (path : List String) :
    (t.setAt key e (segment :: path)).1.keys =
      if segment ∈ t.keys then t.keys else t.keys ++ [segment] := by
  rw [setAt, within_eq_insert, keys_insert]

theorem within_answer {β : Type} (t : KeyTree α) (key : String)
    (f : KeyTree α → KeyTree α × β) : (t.within key f).2 = (f (t.branchAt [key])).2 := by
  induction t with
  | nil => rfl
  | leaf k v rest ih =>
    rw [branchAt_single] at ih
    by_cases same : k = key <;> simp [within, branchAt_single, get?, same, ih]
  | branch k sub rest _ ih =>
    rw [branchAt_single] at ih
    by_cases same : k = key <;> simp [within, branchAt_single, get?, same, ih]

/-- What a write answers is what stood there before. -/
theorem setAt_answer (t : KeyTree α) (key : String) (e : Entry α) (path : List String) :
    (t.setAt key e path).2 = t.find? (path ++ [key]) := by
  induction path generalizing t with
  | nil => exact (find?_key t key).symm
  | cons segment path ih =>
    rw [setAt, within_answer, ih, find?_branchAt [segment] (by simp), List.singleton_append,
      List.cons_append]

theorem find?_setAt (t : KeyTree α) (key : String) (e : Entry α) (path : List String) :
    (t.setAt key e path).1.find? (path ++ [key]) = some e := by
  induction path generalizing t with
  | nil => rw [List.nil_append, find?_key, setAt, get?_insert, if_pos rfl]
  | cons segment path ih =>
    have way := get?_setAt_cons t key e segment path segment
    rw [if_pos rfl] at way
    rw [List.cons_append, find?_below way (by simp), ih]

/-- A path that is neither on the way to a write nor beyond it answers as before. -/
theorem find?_setAt_apart (t : KeyTree α) (key : String) (e : Entry α) {path other : List String}
    (shorter : ¬ other <+: path ++ [key]) (longer : ¬ path ++ [key] <+: other) :
    (t.setAt key e path).1.find? other = t.find? other := by
  induction path generalizing t other with
  | nil =>
    cases other with
    | nil => rfl
    | cons k other =>
      have differ : key ≠ k := by rintro rfl; simp at longer
      rw [find?_eq_bind, find?_eq_bind, setAt, get?_insert, if_neg differ]
  | cons segment path ih =>
    cases other with
    | nil => rfl
    | cons k other =>
      rw [List.cons_append, List.cons_prefix_cons, not_and] at shorter longer
      by_cases same : segment = k
      · subst k
        have below : other ≠ [] := by rintro rfl; simp at shorter
        have way := get?_setAt_cons t key e segment path segment
        rw [if_pos rfl] at way
        rw [find?_below way below, ih _ (shorter rfl) (longer rfl),
          find?_branchAt [segment] below, List.singleton_append]
      · rw [find?_eq_bind, find?_eq_bind, get?_setAt_cons, if_neg same]

theorem branch_on_way (t : KeyTree α) (key : String) (e : Entry α) {path front : List String}
    (before : front <+: path) (below : front ≠ []) :
    ∃ sub, (t.setAt key e path).1.find? front = some (.branch sub) := by
  induction path generalizing t front with
  | nil => exact absurd (List.prefix_nil.mp before) below
  | cons segment path ih =>
    cases front with
    | nil => exact absurd rfl below
    | cons k front =>
      rw [List.cons_prefix_cons] at before
      obtain ⟨rfl, before⟩ := before
      have way := get?_setAt_cons t key e k path k
      rw [if_pos rfl] at way
      by_cases last : front = []
      · subst front
        exact ⟨_, (find?_key _ k).trans way⟩
      · obtain ⟨sub, stands⟩ := ih (t.branchAt [k]) before last
        exact ⟨sub, (find?_below way last).trans stands⟩

/-- Every branch on the way to a write keeps its keys in place; the next one on the way comes last
if it is new. -/
theorem keys_on_way (t : KeyTree α) (key : String) (e : Entry α) {path front : List String}
    {next : String} (before : front ++ [next] <+: path ++ [key]) :
    ((t.setAt key e path).1.branchAt front).keys =
      if next ∈ (t.branchAt front).keys then (t.branchAt front).keys
      else (t.branchAt front).keys ++ [next] := by
  induction path generalizing t front with
  | nil =>
    obtain ⟨rfl, rfl⟩ : front = [] ∧ next = key := by
      have short := before.length_le
      obtain rfl : front = [] := by simpa using short
      exact ⟨rfl, by simpa using before⟩
    rw [branchAt, branchAt, setAt, keys_insert]
  | cons segment path ih =>
    cases front with
    | nil =>
      rw [List.nil_append, List.cons_append, List.cons_prefix_cons] at before
      rw [before.1, branchAt, branchAt, keys_setAt]
    | cons k front =>
      rw [List.cons_append, List.cons_append, List.cons_prefix_cons] at before
      obtain ⟨rfl, before⟩ := before
      rw [branchAt_cons, branchAt_cons k front t, branchAt_setAt, ih _ before]

/-- Of two writes at one place the later one is left. -/
theorem setAt_setAt (t : KeyTree α) (key : String) (e later : Entry α) (path : List String) :
    ((t.setAt key e path).1.setAt key later path).1 = (t.setAt key later path).1 := by
  rw [setAt_eq_editAt, setAt_eq_editAt, setAt_eq_editAt, editAt_editAt]
  exact editAt_congr (insert_insert _ key e later)

end KeyTree

namespace ResolverMap

/-- What a write of an entry at a place makes of a map. -/
structure Written (path : List String) (key : String) (e : KeyTree.Entry Leaf)
    (before after : ResolverMap) : Prop where
  stands : after.at? (path ++ [key]) = .ok e
  apart : ∀ other, ¬ other <+: path ++ [key] → ¬ path ++ [key] <+: other →
    after.find? other = before.find? other
  way : ∀ front, front <+: path → front ≠ [] → ∃ sub, after.at? front = .ok (.branch sub)
  order : ∀ front next, front ++ [next] <+: path ++ [key] →
    (after.branchAt front).keys =
      if next ∈ (before.branchAt front).keys then (before.branchAt front).keys
      else (before.branchAt front).keys ++ [next]

/-- Writing is lawful: it is read back and answers what was there, paths apart and keys in place stay
as they are, and a second write at the same place takes the place of the first. -/
theorem setAt_lawful (map : ResolverMap) (path : List String) (key : String)
    (e : KeyTree.Entry Leaf) :
    Written path key e map (map.setAt key e path).1 ∧
      (map.setAt key e path).2 = (map.at? (path ++ [key])).toOption ∧
      ∀ later, ((map.setAt key e path).1.setAt key later path).1 = (map.setAt key later path).1 := by
  refine ⟨⟨?_, ?_, ?_, ?_⟩, ?_, fun later => map.setAt_setAt key e later path⟩
  · exact at?_ok.mpr (map.find?_setAt key e path)
  · exact fun other shorter longer => map.find?_setAt_apart key e shorter longer
  · intro front before below
    obtain ⟨sub, stands⟩ := map.branch_on_way key e before below
    exact ⟨sub, at?_ok.mpr stands⟩
  · exact fun front next before => map.keys_on_way key e before
  · rw [toOption_at?, map.setAt_answer key e path]

/-- A leaf in the way gives way to a branch, which stands in its place. -/
example : (KeyTree.setAt "c" (.leaf (.value .null)) ["a", "b"]
      (.leaf "a" (.value .null) (.leaf "d" (.value .null) .nil) : ResolverMap)).1 =
    .branch "a" (.branch "b" (.leaf "c" (.value .null) .nil) .nil)
      (.leaf "d" (.value .null) .nil) := rfl

end ResolverMap
end SchemaStitch
