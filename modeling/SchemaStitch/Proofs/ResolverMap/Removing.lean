import Mathlib.Tactic.ByContra
import SchemaStitch.Proofs.ResolverMap.Paths

/-! Removing the entry at a path. The entry goes, with it the branches on the way that held nothing
else, and nothing besides. Where there is no such entry nothing goes, unless the way ends in a branch
without entries: that one is pruned too. -/
namespace SchemaStitch

namespace KeyTree

variable {α : Type}

/-- Everything in a tree is on the way to a path, at it or beyond it. -/
def Leads (path : List String) (t : KeyTree α) : Prop :=
  ∀ other, other ≠ [] → t.find? other ≠ none → other <+: path ∨ path <+: other

/-- Every branch on the way to a path holds something. -/
def Filled (path : List String) (t : KeyTree α) : Prop :=
  ∀ front sub, front <+: path → t.find? front = some (.branch sub) → sub.isEmpty = false

theorem insert_of_get? {t : KeyTree α} {key : String} {e : Entry α} (found : t.get? key = some e) :
    t.insert key e = t := by
  induction t using cons_induction with
  | nil => cases found
  | cons k own rest ih =>
    rw [get?_cons] at found
    split at found
    · obtain rfl := Option.some.inj found
      cases own <;> simp_all [insert, cons]
    · cases own <;> simp_all [insert, cons]

theorem erase_of_absent {t : KeyTree α} {key : String} (absent : t.get? key = none) :
    t.erase key = t := by
  induction t with
  | nil => rfl
  | leaf k v rest ih =>
    by_cases here : k = key
    · simp [get?, here] at absent
    · rw [erase, if_neg here, ih (by simpa [get?, here] using absent)]
  | branch k sub rest _ ih =>
    by_cases here : k = key
    · simp [get?, here] at absent
    · rw [erase, if_neg here, ih (by simpa [get?, here] using absent)]

section
variable {t : KeyTree α} {key : String} {path : List String}

theorem removeAt_way {sub : KeyTree α} (found : t.get? key = some (.branch sub))
    (below : path ≠ []) :
    (t.removeAt (key :: path)).1 =
      if (sub.removeAt path).1.isEmpty then t.erase key
      else t.insert key (.branch (sub.removeAt path).1) := by
  obtain ⟨next, path, rfl⟩ := List.exists_cons_of_ne_nil below
  rw [removeAt_deeper, found]

theorem sublist_keys_removed (t : KeyTree α) (path : List String) :
    (t.removeAt path).1.keys.Sublist t.keys := by
  match path with
  | [] => exact .refl _
  | [key] => exact t.sublist_keys_erase key
  | key :: next :: path => exact t.sublist_keys_removeAt key next path

theorem find?_removeAt_self (keyed : t.Keyed) (path : List String) :
    (t.removeAt path).1.find? path = none := by
  induction path generalizing t with
  | nil => rfl
  | cons key path ih =>
    by_cases below : path = []
    · subst path
      rw [find?_key, removeAt, keyed.get?_erase_self]
    · rcases removeAt_cases t key below with ⟨sub, found⟩ | ⟨same, unbranched⟩
      · have way := get?_removeAt_way keyed found below
        split at way
        · exact find?_absent way path
        · rw [find?_below way below, ih (keyed.branch found)]
      · rw [same]
        exact find?_unbranched unbranched below

theorem sublist_branchAt (keyed : t.Keyed) (path front : List String) :
    ((t.removeAt path).1.branchAt front).keys.Sublist (t.branchAt front).keys := by
  induction front generalizing t path with
  | nil => exact t.sublist_keys_removed path
  | cons k front ih =>
    cases path with
    | nil => exact .refl _
    | cons key path =>
      rw [branchAt_cons, branchAt_cons k front t]
      by_cases same : key = k
      · subst k
        by_cases below : path = []
        · subst path
          rw [branchAt_single, removeAt, keyed.get?_erase_self, branchAt_nil]
          exact List.nil_sublist _
        · rcases removeAt_cases t key below with ⟨sub, found⟩ | ⟨same, _⟩
          · have way := get?_removeAt_way keyed found below
            rw [branchAt_single, branchAt_single t, found, way]
            split
            · rename_i inner stands
              split at stands
              · cases stands
              · cases stands
                exact ih (keyed.branch found) path
            · rw [branchAt_nil]
              exact List.nil_sublist _
          · simp only [same, List.Sublist.refl]
      · simp only [branchAt_single, get?_removeAt_other keyed same, List.Sublist.refl]

theorem leads_below {sub : KeyTree α} (found : t.get? key = some (.branch sub))
    (leads : t.Leads (key :: path)) : sub.Leads path := by
  intro other below stands
  rw [← find?_below found below] at stands
  simpa [List.cons_prefix_cons] using leads (key :: other) (by simp) stands

theorem Leads.branchAt {front rest : List String} (leads : t.Leads (front ++ rest)) :
    (t.branchAt front).Leads rest := by
  intro other below stands
  rw [find?_branchAt front below] at stands
  simpa [List.prefix_append_right_inj] using leads (front ++ other) (by simp [below]) stands

/-- Taking out an entry leaves nothing if and only if there was nothing but the way to it. -/
theorem isEmpty_removeAt (keyed : t.Keyed) {e : Entry α} (found : t.find? path = some e) :
    (t.removeAt path).1.isEmpty = true ↔ t.Leads path := by
  constructor
  · intro empty other _ stands
    by_contra apart
    rw [not_or] at apart
    rw [← find?_removeAt_apart keyed apart.1 apart.2, isEmpty_iff.mp empty, find?_nil] at stands
    exact stands rfl
  · induction path generalizing t with
    | nil => cases found
    | cons key path ih =>
      intro leads
      by_contra full
      rw [Bool.not_eq_true] at full
      obtain ⟨k, member, stands⟩ := exists_get?_of_full full
      have stood : t.find? [k] ≠ none := fun absent => stands
        (get?_of_sublist (t.sublist_keys_removed (key :: path)) ((find?_key t k).symm.trans absent))
      have same : k = key := by
        rcases leads [k] (by simp) stood with shorter | longer
        · exact (List.cons_prefix_cons.mp shorter).1
        · exact (List.cons_prefix_cons.mp longer).1.symm
      subst k
      by_cases below : path = []
      · subst path
        rw [removeAt, keyed.get?_erase_self] at stands
        exact stands rfl
      · obtain ⟨sub, here, deeper⟩ := branch_of_find? found below
        rw [get?_removeAt_way keyed here below,
          if_pos (ih (keyed.branch here) deeper (leads_below here leads))] at stands
        exact stands rfl

/-- A branch on the way goes if and only if it held nothing but the rest of the way. -/
theorem branch_goes_iff (keyed : t.Keyed) {e : Entry α} {front rest : List String}
    (found : t.find? (front ++ rest) = some e) (inside : front ≠ []) (below : rest ≠ []) :
    (t.removeAt (front ++ rest)).1.find? front = none ↔ (t.branchAt front).Leads rest := by
  induction front generalizing t with
  | nil => exact absurd rfl inside
  | cons key front ih =>
    have deeper : front ++ rest ≠ [] := by simp [below]
    rw [List.cons_append] at found ⊢
    obtain ⟨sub, here, found⟩ := branch_of_find? found deeper
    have keyed_sub := keyed.branch here
    have way := get?_removeAt_way keyed here deeper
    rw [branchAt_cons, branchAt_single, here]
    split at way
    · rename_i empty
      exact iff_of_true (find?_absent way front) ((isEmpty_removeAt keyed_sub found).mp empty).branchAt
    · rename_i full
      by_cases last : front = []
      · subst front
        rw [find?_key, way, branchAt]
        exact iff_of_false (by simp) fun leads => full ((isEmpty_removeAt keyed_sub found).mpr leads)
      · rw [find?_below way last]
        exact ih keyed_sub found last

theorem filled_cons {sub : KeyTree α} (found : t.get? key = some (.branch sub)) :
    t.Filled (key :: path) ↔ sub.isEmpty = false ∧ sub.Filled path := by
  constructor
  · intro filled
    refine ⟨filled [key] sub (by simp) ((find?_key t key).trans found), fun front inner before => ?_⟩
    by_cases below : front = []
    · subst front
      intro stands
      cases stands
    · rw [← find?_below found below]
      exact filled (key :: front) inner (by simpa using before)
  · rintro ⟨full, filled⟩ front inner before stands
    cases front with
    | nil => cases stands
    | cons k front =>
      rw [List.cons_prefix_cons] at before
      obtain ⟨rfl, before⟩ := before
      by_cases below : front = []
      · subst front
        rw [find?_key, found] at stands
        cases stands
        exact full
      · exact filled front inner before ((find?_below found below).symm.trans stands)

theorem filled_unbranched (unbranched : ∀ sub, t.get? key ≠ some (.branch sub))
    (path : List String) : t.Filled (key :: path) := by
  intro front sub before stands
  cases front with
  | nil => cases stands
  | cons k front =>
    rw [List.cons_prefix_cons] at before
    obtain ⟨rfl, before⟩ := before
    by_cases below : front = []
    · subst front
      exact absurd ((find?_key t k).symm.trans stands) (unbranched sub)
    · rw [find?_unbranched unbranched below] at stands
      cases stands

/-- Where there is nothing to remove, a tree stays as it is if and only if no branch on the way is
empty. -/
theorem removeAt_unchanged_iff (keyed : t.Keyed) (absent : t.find? path = none) :
    (t.removeAt path).1 = t ↔ t.Filled path := by
  induction path generalizing t with
  | nil =>
    refine iff_of_true rfl fun front sub before stands => ?_
    rw [List.prefix_nil.mp before] at stands
    cases stands
  | cons key path ih =>
    by_cases below : path = []
    · subst path
      rw [find?_key] at absent
      exact iff_of_true (erase_of_absent absent) (filled_unbranched (by simp [absent]) [])
    · rcases removeAt_cases t key below with ⟨sub, found⟩ | ⟨same, unbranched⟩
      · rw [find?_below found below] at absent
        rw [filled_cons found, ← ih (keyed.branch found) absent]
        constructor
        · intro same
          have way := get?_removeAt_way keyed found below
          rw [same, found] at way
          split at way
          · cases way
          · rename_i full
            have inner : sub = (sub.removeAt path).1 := by simpa using way
            exact ⟨by rw [inner]; simpa using full, inner.symm⟩
        · rintro ⟨full, inner⟩
          rw [removeAt_way found below, inner, full]
          exact insert_of_get? found
      · rw [same]
        exact iff_of_true rfl (filled_unbranched unbranched path)

end
end KeyTree

namespace ResolverMap

/-- What taking out the entry at a path leaves of a map. -/
structure Removed (path : List String) (before after : ResolverMap) : Prop where
  gone : ∃ error, after.at? path = .error error
  pruned : ∀ front rest, front ++ rest = path → front ≠ [] → rest ≠ [] →
    (after.find? front = none ↔
      ∀ other, other ≠ [] → before.find? (front ++ other) ≠ none → other <+: rest ∨ rest <+: other)
  apart : ∀ other, ¬ other <+: path → ¬ path <+: other → after.find? other = before.find? other
  order : ∀ front, (after.branchAt front).keys.Sublist (before.branchAt front).keys

theorem removed {map : ResolverMap} (keyed : map.Keyed) {path : List String}
    {e : KeyTree.Entry Leaf} (found : map.find? path = some e) :
    Removed path map (map.removeAt path).1 where
  gone := at?_error.mpr (map.find?_removeAt_self keyed path)
  pruned := by
    rintro front rest rfl inside below
    rw [KeyTree.branch_goes_iff keyed found inside below, KeyTree.Leads]
    refine forall₂_congr fun other deeper => ?_
    rw [KeyTree.find?_branchAt front deeper]
  apart := fun _ shorter longer => map.find?_removeAt_apart keyed shorter longer
  order := fun front => KeyTree.sublist_branchAt keyed path front

/-- A removal answers the entry at the path, if there is one. Then that entry goes, with it the
branches on the way that held nothing else, and nothing besides. If there is none, the map stays as
it is exactly if every branch on the way holds something. -/
theorem removeAt_takes_one {map : ResolverMap} (keyed : map.Keyed) (path : List String) :
    (∀ e, (map.removeAt path).2 = some e ↔ map.at? path = .ok e) ∧
      ((map.removeAt path).2 ≠ none → Removed path map (map.removeAt path).1) ∧
      ((map.removeAt path).2 = none →
        ((map.removeAt path).1 = map ↔
          ∀ front sub, front <+: path → map.at? front = .ok (.branch sub) →
            sub.isEmpty = false)) := by
  rw [KeyTree.removeAt_answer]
  refine ⟨fun e => at?_ok.symm, fun stands => ?_, fun absent => ?_⟩
  · obtain ⟨e, found⟩ := Option.ne_none_iff_exists'.mp stands
    exact removed keyed found
  · simp only [at?_ok]
    exact KeyTree.removeAt_unchanged_iff keyed absent

/-- A branch in a branch that holds nothing else, and one without entries. -/
def hollow : ResolverMap :=
  .branch "Outer" (.branch "Inner" (.leaf "a" (.value .null) .nil) .nil)
    (.branch "Empty" .nil (.leaf "b" (.value .null) .nil))

theorem removeAt_takes_one_hollow :
    hollow.Keyed ∧
      ((hollow.removeAt ["Outer", "Inner", "a"]).2 = some (.leaf (.value .null)) ∧
        Removed ["Outer", "Inner", "a"] hollow (hollow.removeAt ["Outer", "Inner", "a"]).1 ∧
        (hollow.removeAt ["Outer", "Inner", "a"]).1.keys = ["Empty", "b"]) ∧
      ((hollow.removeAt ["Outer", "c"]).2 = none ∧ (hollow.removeAt ["Outer", "c"]).1 = hollow) ∧
      (hollow.removeAt ["Empty", "c"]).2 = none ∧ (hollow.removeAt ["Empty", "c"]).1 ≠ hollow := by
  have keyed : hollow.Keyed := by simp [hollow, KeyTree.Keyed, KeyTree.keys]
  obtain ⟨_, removed, _⟩ := removeAt_takes_one keyed ["Outer", "Inner", "a"]
  obtain ⟨_, _, full⟩ := removeAt_takes_one keyed ["Outer", "c"]
  obtain ⟨_, _, empty⟩ := removeAt_takes_one keyed ["Empty", "c"]
  refine ⟨keyed, ⟨rfl, removed (Option.some_ne_none _), rfl⟩, ⟨rfl, (full rfl).mpr ?_⟩, rfl, ?_⟩
  · intro front sub before stands
    rcases front with _ | ⟨k, _ | ⟨l, rest⟩⟩
    · cases stands
    · obtain rfl : k = "Outer" := by simpa using before
      cases stands
      rfl
    · obtain ⟨rfl, rfl, rfl⟩ : k = "Outer" ∧ l = "c" ∧ rest = [] := by simpa using before
      cases stands
  · intro same
    have filled := (empty rfl).mp same ["Empty"] .nil (by simp) rfl
    cases filled

/-- A branch without entries goes though nothing was removed from it. -/
theorem removeAt_can_take_empty :
    ¬ ∀ (map : ResolverMap) (path : List String), map.Keyed → (map.removeAt path).2 = none →
      (map.removeAt path).1 = map := by
  intro claim
  have same := claim (.branch "Query" .nil .nil) ["Query", "a"]
    ⟨List.not_mem_nil, trivial, trivial⟩ rfl
  cases same

end ResolverMap
end SchemaStitch
