import SchemaStitch.Proofs.KeyTree.Leaves

/-! The branch that a path leads to. Writing at a path is editing that branch, edits of one branch
compose, and writes under a key that the branch lacks put what is written behind all it holds. -/
namespace SchemaStitch.KeyTree

variable {α β : Type}

/-- The branch at a path; where there is none, the tree without entries. -/
def branchAt : List String → KeyTree α → KeyTree α
  | [], t => t
  | key :: path, t =>
    match t.get? key with
    | some (.branch sub) => sub.branchAt path
    | _ => .nil

/-- Changes the branch at a path, which is made if there is none. -/
def editAt : List String → (KeyTree α → KeyTree α) → KeyTree α → KeyTree α
  | [], f, t => f t
  | key :: path, f, t => (t.within key fun sub => (editAt path f sub, ())).1

/-- The entries of one tree, then those of another. -/
def append : KeyTree α → KeyTree α → KeyTree α
  | .nil, u => u
  | .leaf key v rest, u => .leaf key v (rest.append u)
  | .branch key sub rest, u => .branch key sub (rest.append u)

@[simp] theorem branchAt_nil (path : List String) : (nil : KeyTree α).branchAt path = .nil := by
  cases path <;> rfl

@[simp] theorem append_nil (t : KeyTree α) : t.append .nil = t := by
  induction t with
  | nil => rfl
  | leaf key v rest ih => rw [append, ih]
  | branch key sub rest _ ih => rw [append, ih]

theorem insert_append {t : KeyTree α} {key : String} (fresh : key ∉ t.keys) (e : Entry α)
    (u : KeyTree α) : (t.insert key e).append u = t.append (cons key e u) := by
  induction t with
  | nil => cases e <;> rfl
  | leaf k v rest ih =>
    simp only [keys, List.mem_cons, not_or] at fresh
    rw [insert, if_neg (Ne.symm fresh.1), append, ih fresh.2, append]
  | branch k sub rest _ ih =>
    simp only [keys, List.mem_cons, not_or] at fresh
    rw [insert, if_neg (Ne.symm fresh.1), append, ih fresh.2, append]

theorem branchAt_single (t : KeyTree α) (key : String) :
    t.branchAt [key] = match t.get? key with | some (.branch sub) => sub | _ => .nil := by
  rw [branchAt]
  split <;> rfl

/-- Changing the branch of a key is writing the changed branch. -/
theorem within_eq_insert (t : KeyTree α) (key : String) (f : KeyTree α → KeyTree α × β) :
    (t.within key f).1 = t.insert key (.branch (f (t.branchAt [key])).1) := by
  induction t with
  | nil => rfl
  | leaf k v rest ih =>
    rw [branchAt_single] at ih
    by_cases same : k = key <;> simp [within, insert, branchAt_single, get?, same, cons, ih]
  | branch k sub rest _ ih =>
    rw [branchAt_single] at ih
    by_cases same : k = key <;> simp [within, insert, branchAt_single, get?, same, cons, ih]

theorem within_fresh {t : KeyTree α} {key : String} (fresh : key ∉ t.keys)
    (f : KeyTree α → KeyTree α × β) :
    (t.within key f).1 = t.insert key (.branch (f .nil).1) := by
  rw [within_eq_insert, branchAt_single, get?_eq_none.mpr fresh]

theorem insert_insert (t : KeyTree α) (key : String) (e later : Entry α) :
    (t.insert key e).insert key later = t.insert key later := by
  induction t with
  | nil => cases e <;> simp [insert, cons]
  | leaf k v rest ih => by_cases same : k = key <;> cases e <;> simp [insert, cons, same, ih]
  | branch k sub rest _ ih => by_cases same : k = key <;> cases e <;> simp [insert, cons, same, ih]

theorem branchAt_insert (t sub : KeyTree α) (key : String) :
    (t.insert key (.branch sub)).branchAt [key] = sub := by
  rw [branchAt_single, get?_insert, if_pos rfl]

theorem within_within (t : KeyTree α) (key : String) (f g : KeyTree α → KeyTree α) :
    ((t.within key fun s => (f s, ())).1.within key fun s => (g s, ())).1 =
      (t.within key fun s => (g (f s), ())).1 := by
  rw [within_eq_insert t, within_eq_insert, branchAt_insert, insert_insert, within_eq_insert]

theorem within_congr {t : KeyTree α} {key : String} {f g : KeyTree α → KeyTree α}
    (same : f (t.branchAt [key]) = g (t.branchAt [key])) :
    (t.within key fun s => (f s, ())).1 = (t.within key fun s => (g s, ())).1 := by
  rw [within_eq_insert, within_eq_insert, same]

theorem branchAt_cons (key : String) (path : List String) (t : KeyTree α) :
    t.branchAt (key :: path) = (t.branchAt [key]).branchAt path := by
  rw [branchAt_single, branchAt]
  split <;> simp_all

theorem branchAt_append (path later : List String) (t : KeyTree α) :
    t.branchAt (path ++ later) = (t.branchAt path).branchAt later := by
  induction path generalizing t with
  | nil => rfl
  | cons key path ih => rw [List.cons_append, branchAt_cons, ih, ← branchAt_cons]

theorem setAt_eq_editAt (key : String) (e : Entry α) (path : List String) (t : KeyTree α) :
    (setAt key e path t).1 = t.editAt path (·.insert key e) := by
  induction path generalizing t with
  | nil => rfl
  | cons segment path ih => rw [setAt, editAt, within_eq_insert, within_eq_insert, ih]

theorem branchAt_editAt (path : List String) (f : KeyTree α → KeyTree α) (t : KeyTree α) :
    (t.editAt path f).branchAt path = f (t.branchAt path) := by
  induction path generalizing t with
  | nil => rfl
  | cons key path ih =>
    rw [branchAt_cons, branchAt_cons _ _ t, ← ih, editAt, within_eq_insert, branchAt_insert]

theorem editAt_editAt (path : List String) (f g : KeyTree α → KeyTree α) (t : KeyTree α) :
    (t.editAt path f).editAt path g = t.editAt path fun b => g (f b) := by
  induction path generalizing t with
  | nil => rfl
  | cons key path ih => simp only [editAt, within_within, ih]

theorem editAt_append (path later : List String) (f : KeyTree α → KeyTree α) (t : KeyTree α) :
    t.editAt (path ++ later) f = t.editAt path (·.editAt later f) := by
  induction path generalizing t with
  | nil => rfl
  | cons key path ih => simp only [List.cons_append, editAt, ih]

theorem editAt_congr {path : List String} {f g : KeyTree α → KeyTree α} {t : KeyTree α}
    (same : f (t.branchAt path) = g (t.branchAt path)) : t.editAt path f = t.editAt path g := by
  induction path generalizing t with
  | nil => exact same
  | cons key path ih =>
    rw [editAt, editAt]
    apply within_congr
    apply ih
    simpa only [← branchAt_cons] using same

theorem Keyed.setAt {t : KeyTree α} {e : Entry α} (keyed : t.Keyed) (entry : e.Keyed) (key : String)
    (path : List String) : (t.setAt key e path).1.Keyed := by
  induction path generalizing t with
  | nil => exact keyed.insert entry key
  | cons segment path ih =>
    rw [KeyTree.setAt, within_eq_insert]
    apply keyed.insert
    apply ih
    rw [branchAt_single]
    split
    · exact keyed.branch ‹_›
    · trivial

theorem leaf?_branchAt {t : KeyTree α} {key : String} {path : List String} {v : α}
    (found : (t.branchAt [key]).leaf? path = some v) : t.leaf? (key :: path) = some v := by
  rw [branchAt_single] at found
  rw [leaf?_cons]
  split at found
  · rename_i sub here
    rw [here]
    exact found
  · simp at found

/-- A write at a path adds no leaf but the one written. -/
theorem leaf?_of_setAt {t : KeyTree α} {key : String} {v : α} {path other : List String} {l : α}
    (found : (t.setAt key (.leaf v) path).1.leaf? other = some l) :
    l = v ∨ t.leaf? other = some l := by
  induction path generalizing t other with
  | nil =>
    cases other with
    | nil => simp at found
    | cons k rest =>
      rw [setAt, leaf?_eq_bind, get?_insert] at found
      split at found
      · left
        obtain ⟨_, same⟩ : rest.isEmpty ∧ v = l := by simpa [Entry.leaf?] using found
        exact same.symm
      · right
        rwa [leaf?_eq_bind]
  | cons segment path ih =>
    cases other with
    | nil => simp at found
    | cons k rest =>
      rw [setAt, within_eq_insert, leaf?_eq_bind, get?_insert] at found
      split at found
      · subst k
        rcases ih found with same | before
        · exact Or.inl same
        · exact Or.inr (leaf?_branchAt before)
      · right
        rwa [leaf?_eq_bind]

end SchemaStitch.KeyTree
