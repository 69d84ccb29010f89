import SchemaStitch.Proofs.KeyTree.Branches
import SchemaStitch.Proofs.KeyTree.Removal

/-! Key trees without empty branches. Writing, laying over and taking out leave no branch empty, and
in a map of resolvers by type and field a write at one field is seen at that field alone. -/
namespace SchemaStitch.KeyTree

variable {α : Type}

/-- A leaf, or a branch that holds something and has no empty branch in it. -/
def Entry.Pruned : Entry α → Prop
  | .leaf _ => True
  | .branch sub => sub.isEmpty = false ∧ sub.Pruned

theorem isEmpty_insert (t : KeyTree α) (key : String) (e : Entry α) :
    (t.insert key e).isEmpty = false := by
  cases t with
  | nil => cases e <;> rfl
  | leaf k v rest =>
    rw [insert]
    split
    · cases e <;> rfl
    · rfl
  | branch k sub rest =>
    rw [insert]
    split
    · cases e <;> rfl
    · rfl

theorem Pruned.insert {t : KeyTree α} {e : Entry α} (pruned : t.Pruned) (entry : e.Pruned)
    (key : String) : (t.insert key e).Pruned := by
  have cons {rest : KeyTree α} (pruned : rest.Pruned) : (cons key e rest).Pruned := by
    cases e with
    | leaf v => exact pruned
    | branch sub => exact ⟨entry.1, entry.2, pruned⟩
  induction t with
  | nil => exact cons trivial
  | leaf k v rest ih =>
    rw [KeyTree.insert]
    split
    · exact cons pruned
    · exact ih pruned
  | branch k sub rest _ ih =>
    obtain ⟨full, sub_pruned, rest_pruned⟩ := pruned
    rw [KeyTree.insert]
    split
    · exact cons rest_pruned
    · exact ⟨full, sub_pruned, ih rest_pruned⟩

theorem isEmpty_overlay {t : KeyTree α} (full : t.isEmpty = false) (u : KeyTree α) :
    (t.overlay u).isEmpty = false := by
  induction u generalizing t with
  | nil => exact full
  | leaf k v rest ih => exact ih (isEmpty_insert t k _)
  | branch k sub rest _ ih =>
    rw [overlay]
    split <;> exact ih (isEmpty_insert t k _)

theorem Pruned.overlay {t u : KeyTree α} (lower : t.Pruned) (upper : u.Pruned) :
    (t.overlay u).Pruned := by
  induction u generalizing t with
  | nil => exact lower
  | leaf k v rest ih => exact ih (lower.insert (e := .leaf v) trivial k) upper
  | branch k sub rest ih_sub ih =>
    obtain ⟨full, sub_pruned, rest_pruned⟩ := upper
    rw [KeyTree.overlay]
    split
    · rename_i mine found
      obtain ⟨mine_full, mine_pruned⟩ := lower.branch found
      refine ih (lower.insert (e := .branch _) ⟨?_, ?_⟩ k) rest_pruned
      · exact isEmpty_overlay mine_full sub
      · exact ih_sub mine_pruned sub_pruned
    · exact ih (lower.insert (e := .branch _) ⟨full, sub_pruned⟩ k) rest_pruned

theorem Pruned.erase {t : KeyTree α} (pruned : t.Pruned) (key : String) : (t.erase key).Pruned := by
  induction t with
  | nil => trivial
  | leaf k v rest ih =>
    rw [KeyTree.erase]
    split
    · exact pruned
    · exact ih pruned
  | branch k sub rest _ ih =>
    obtain ⟨full, sub_pruned, rest_pruned⟩ := pruned
    rw [KeyTree.erase]
    split
    · exact rest_pruned
    · exact ⟨full, sub_pruned, ih rest_pruned⟩

theorem Pruned.removeAt {t : KeyTree α} (pruned : t.Pruned) (path : List String) :
    (t.removeAt path).1.Pruned := by
  induction path generalizing t with
  | nil => exact pruned
  | cons key path ih =>
    cases path with
    | nil => exact pruned.erase key
    | cons next path =>
      rw [removeAt_deeper]
      split
      · rename_i sub found
        dsimp only
        split
        · exact pruned.erase key
        · rename_i full
          exact pruned.insert (e := .branch _) ⟨by simpa using full, ih (pruned.branch found).2⟩ key
      · exact pruned

theorem Pruned.branchAt {t : KeyTree α} (pruned : t.Pruned) (key : String) :
    (t.branchAt [key]).Pruned := by
  rw [branchAt_single]
  split
  · exact (pruned.branch ‹_›).2
  · trivial

/-- A write at a field is a write of the branch of its type. -/
theorem setAt_single (t : KeyTree α) (key field : String) (e : Entry α) :
    (t.setAt field e [key]).1 = t.insert key (.branch ((t.branchAt [key]).insert field e)) := by
  rw [setAt, within_eq_insert]
  rfl

theorem Pruned.setAt {t : KeyTree α} (pruned : t.Pruned) (key field : String) (v : α) :
    (t.setAt field (.leaf v) [key]).1.Pruned := by
  rw [setAt_single]
  exact pruned.insert (e := .branch _)
    ⟨isEmpty_insert _ _ _, (pruned.branchAt key).insert (e := .leaf v) trivial field⟩ key

theorem get?_setAt (t : KeyTree α) (key field : String) (e : Entry α) (other : String) :
    (t.setAt field e [key]).1.get? other =
      if key = other then some (.branch ((t.branchAt [key]).insert field e)) else t.get? other := by
  rw [setAt_single, get?_insert]

/-- A tree with leaves at the same places as a tree without empty branches has all its branches. -/
theorem Pruned.same_branch {t u sub : KeyTree α} (pruned : t.Pruned)
    (same : ∀ path, u.leaf? path = none ↔ t.leaf? path = none) {key : String}
    (found : t.get? key = some (.branch sub)) : ∃ sub', u.get? key = some (.branch sub') := by
  obtain ⟨full, sub_pruned⟩ := pruned.branch found
  obtain ⟨path, v, stands⟩ := sub_pruned.exists_leaf full
  have leaf : t.leaf? (key :: path) = some v := by
    rw [leaf?_cons, found]
    exact stands
  have also : u.leaf? (key :: path) ≠ none := by
    rw [ne_eq, same, leaf]
    simp
  rw [leaf?_eq_bind] at also
  cases there : u.get? key with
  | none => simp [there] at also
  | some e =>
    cases e with
    | branch sub' => exact ⟨sub', rfl⟩
    | leaf w =>
      cases path with
      | nil => simp at stands
      | cons next path => simp [there, Entry.leaf?] at also

end SchemaStitch.KeyTree
