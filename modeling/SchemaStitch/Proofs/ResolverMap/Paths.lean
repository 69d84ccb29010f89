import SchemaStitch.Proofs.KeyTree.Branches
import SchemaStitch.Proofs.KeyTree.Removal
import SchemaStitch.ResolverMap.Basic

/-! Entries by path. What stands at a path is found in the branch on the way to it, and a tree in
which no key stands twice is known from its keys in order and the entries under them. -/
namespace SchemaStitch

namespace KeyTree

variable {α : Type}

/-- A tree is empty, or an entry stands in front of another tree. -/
theorem cons_induction {motive : KeyTree α → Prop} (nil : motive .nil)
    (cons : ∀ key e rest, motive rest → motive (KeyTree.cons key e rest)) (t : KeyTree α) :
    motive t := by
  induction t with
  | nil => exact nil
  | leaf key v rest ih => exact cons key (.leaf v) rest ih
  | branch key sub rest _ ih => exact cons key (.branch sub) rest ih

/-- The keys in order and what stands under them say which tree it is. -/
theorem Keyed.ext {t u : KeyTree α} (left : t.Keyed) (right : u.Keyed) (keys : t.keys = u.keys)
    (entries : ∀ key, t.get? key = u.get? key) : t = u := by
  induction t using cons_induction generalizing u with
  | nil => cases u <;> simp [KeyTree.keys] at keys ⊢
  | cons key e rest ih =>
    obtain ⟨fresh, _, rest_keyed⟩ := keyed_cons.mp left
    induction u using cons_induction with
    | nil => simp [KeyTree.keys] at keys
    | cons other e' rest' _ =>
      obtain ⟨fresh', _, rest_keyed'⟩ := keyed_cons.mp right
      rw [keys_cons, keys_cons] at keys
      obtain ⟨rfl, behind⟩ := List.cons.inj keys
      obtain rfl : e = e' := by simpa using entries key
      have same : rest = rest' := by
        refine ih rest_keyed rest_keyed' behind fun k => ?_
        by_cases here : key = k
        · subst k
          rw [get?_eq_none.mpr fresh, get?_eq_none.mpr fresh']
        · simpa [here] using entries k
      rw [same]

/-- On the way to an entry there are branches. -/
theorem branch_before {t : KeyTree α} {front rest : List String} {e : Entry α}
    (found : t.find? (front ++ rest) = some e) (inside : front ≠ []) (below : rest ≠ []) :
    ∃ sub, t.find? front = some (.branch sub) ∧ sub.find? rest = some e := by
  induction front generalizing t with
  | nil => exact absurd rfl inside
  | cons key front ih =>
    obtain ⟨sub, here, found⟩ := branch_of_find? found (by simp [below])
    by_cases last : front = []
    · subst front
      exact ⟨sub, (find?_key t key).trans here, found⟩
    · rw [find?_below here last]
      exact ih found last

/-- Beyond a leaf nothing stands. -/
theorem find?_past_leaf {t : KeyTree α} {front path : List String} {v : α}
    (leaf : t.find? front = some (.leaf v)) (before : front <+: path) (differ : front ≠ path) :
    t.find? path = none := by
  obtain ⟨rest, rfl⟩ := before
  have inside : front ≠ [] := by rintro rfl; cases leaf
  have below : rest ≠ [] := by rintro rfl; simp at differ
  cases found : t.find? (front ++ rest) with
  | none => rfl
  | some e =>
    obtain ⟨sub, branch, _⟩ := branch_before found inside below
    cases leaf.symm.trans branch

theorem no_leaf_before {t : KeyTree α} {path : List String} {e : Entry α}
    (found : t.find? path = some e) (front : List String) (v : α) (before : front <+: path)
    (differ : front ≠ path) : t.find? front ≠ some (.leaf v) := by
  intro leaf
  rw [find?_past_leaf leaf before differ] at found
  cases found

/-- An entry stands at a path as it stands in the branch on the way. -/
theorem find?_branchAt (front : List String) {path : List String} (below : path ≠ [])
    (t : KeyTree α) : (t.branchAt front).find? path = t.find? (front ++ path) := by
  induction front generalizing t with
  | nil => rfl
  | cons key front ih =>
    have deeper : front ++ path ≠ [] := by simp [below]
    rw [branchAt_cons, ih, branchAt_single, List.cons_append]
    cases found : t.get? key with
    | none => rw [find?_absent found, find?_nil]
    | some e =>
      cases e with
      | leaf v => rw [find?_beyond_leaf found deeper, find?_nil]
      | branch sub => rw [find?_below found deeper]

end KeyTree

namespace ResolverMap

variable {t : ResolverMap} {path : List String}

theorem at?_ok {e : KeyTree.Entry Leaf} : t.at? path = .ok e ↔ t.find? path = some e := by
  rw [at?, KeyTree.find?]
  cases t.find path <;> simp [Except.toOption]

theorem at?_error : (∃ error, t.at? path = .error error) ↔ t.find? path = none := by
  rw [at?, KeyTree.find?]
  cases t.find path <;> simp [Except.toOption]

/-- Asked nicely, a path that leads nowhere has no entry. -/
theorem toOption_at? : (t.at? path).toOption = t.find? path := by
  rw [at?, KeyTree.find?]
  cases t.find path <;> rfl

end ResolverMap
end SchemaStitch
