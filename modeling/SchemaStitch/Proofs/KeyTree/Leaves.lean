import SchemaStitch.KeyTree

/-! Key trees read leaf by leaf. A tree in which no key stands twice side by side stays one under
every write, and the leaves of a tree laid over another are known from the leaves of the two. -/
namespace SchemaStitch.KeyTree

variable {α : Type}

/-- No key stands twice among entries that stand side by side. -/
def Keyed : KeyTree α → Prop
  | .nil => True
  | .leaf key _ rest => key ∉ rest.keys ∧ rest.Keyed
  | .branch key sub rest => key ∉ rest.keys ∧ sub.Keyed ∧ rest.Keyed

/-- A branch in which no key stands twice, or a leaf. -/
def Entry.Keyed : Entry α → Prop
  | .leaf _ => True
  | .branch sub => sub.Keyed

/-- The leaf at a path. -/
def leaf? : List String → KeyTree α → Option α
  | [], _ => none
  | key :: path, t =>
    match t.get? key with
    | some (.leaf v) => if path.isEmpty then some v else none
    | some (.branch sub) => sub.leaf? path
    | none => none

@[simp] theorem leaf?_nil (path : List String) : (nil : KeyTree α).leaf? path = none := by
  cases path <;> rfl

@[simp] theorem leaf?_root (t : KeyTree α) : t.leaf? [] = none := rfl

theorem leaf?_cons (key : String) (path : List String) (t : KeyTree α) :
    t.leaf? (key :: path) =
      match t.get? key with
      | some (.leaf v) => if path.isEmpty then some v else none
      | some (.branch sub) => sub.leaf? path
      | none => none := rfl

/-- The leaf that an entry leads to. -/
def Entry.leaf? (path : List String) : Entry α → Option α
  | .leaf v => if path.isEmpty then some v else none
  | .branch sub => sub.leaf? path

theorem leaf?_eq_bind (key : String) (path : List String) (t : KeyTree α) :
    t.leaf? (key :: path) = (t.get? key).bind (Entry.leaf? path) := by
  rw [leaf?_cons]
  cases t.get? key with
  | none => rfl
  | some e => cases e <;> rfl

theorem leaf?_leaf (k : String) (v : α) (rest : KeyTree α) (key : String) (path : List String) :
    (leaf k v rest).leaf? (key :: path) =
      if k = key then (if path.isEmpty then some v else none) else rest.leaf? (key :: path) := by
  by_cases same : k = key <;> simp [leaf?_cons, get?, same]

theorem leaf?_branch (k : String) (sub rest : KeyTree α) (key : String) (path : List String) :
    (branch k sub rest).leaf? (key :: path) =
      if k = key then sub.leaf? path else rest.leaf? (key :: path) := by
  by_cases same : k = key <;> simp [leaf?_cons, get?, same]

theorem leaf?_single {t : KeyTree α} {key : String} {v : α} :
    t.leaf? [key] = some v ↔ t.get? key = some (.leaf v) := by
  rw [leaf?_cons]
  split <;> simp_all

theorem get?_eq_none {t : KeyTree α} {key : String} : t.get? key = none ↔ key ∉ t.keys := by
  induction t with
  | nil => simp [get?, keys]
  | leaf k v rest ih => by_cases here : k = key <;> simp [get?, keys, here, Ne.symm, ih]
  | branch k sub rest _ ih => by_cases here : k = key <;> simp [get?, keys, here, Ne.symm, ih]

theorem leaf?_of_fresh {t : KeyTree α} {key : String} (fresh : key ∉ t.keys) (path : List String) :
    t.leaf? (key :: path) = none := by
  rw [leaf?_cons, get?_eq_none.mpr fresh]

theorem Keyed.get? {t : KeyTree α} {key : String} {e : Entry α} (keyed : t.Keyed)
    (found : t.get? key = some e) : e.Keyed := by
  induction t with
  | nil => simp [KeyTree.get?] at found
  | leaf k v rest ih =>
    rw [KeyTree.get?] at found
    split at found
    · cases found
      trivial
    · exact ih keyed.2 found
  | branch k sub rest _ ih =>
    rw [KeyTree.get?] at found
    split at found
    · cases found
      exact keyed.2.1
    · exact ih keyed.2.2 found

theorem Keyed.branch {t sub : KeyTree α} {key : String} (keyed : t.Keyed)
    (found : t.get? key = some (.branch sub)) : sub.Keyed := keyed.get? found

theorem keyed_cons {key : String} {e : Entry α} {t : KeyTree α} :
    (cons key e t).Keyed ↔ key ∉ t.keys ∧ e.Keyed ∧ t.Keyed := by
  cases e <;> simp [cons, Keyed, Entry.Keyed]

theorem Keyed.insert {t : KeyTree α} {e : Entry α} (keyed : t.Keyed) (entry : e.Keyed)
    (key : String) : (t.insert key e).Keyed := by
  induction t with
  | nil => exact keyed_cons.mpr ⟨by simp [keys], entry, trivial⟩
  | leaf k v rest ih =>
    obtain ⟨fresh, rest_keyed⟩ := keyed
    rw [KeyTree.insert]
    split
    · subst k
      exact keyed_cons.mpr ⟨fresh, entry, rest_keyed⟩
    · rename_i differ
      refine ⟨?_, ih rest_keyed⟩
      rw [keys_insert]
      split <;> simp [fresh, differ]
  | branch k sub rest _ ih =>
    obtain ⟨fresh, sub_keyed, rest_keyed⟩ := keyed
    rw [KeyTree.insert]
    split
    · subst k
      exact keyed_cons.mpr ⟨fresh, entry, rest_keyed⟩
    · rename_i differ
      refine ⟨?_, sub_keyed, ih rest_keyed⟩
      rw [keys_insert]
      split <;> simp [fresh, differ]

/-- What a tree laid over another holds under a key, from what the two hold there. -/
def Entry.over (present : Option (Entry α)) : Entry α → Entry α
  | .leaf v => .leaf v
  | .branch sub =>
    match present with
    | some (.branch mine) => .branch (mine.overlay sub)
    | _ => .branch sub

theorem get?_overlay {t u : KeyTree α} (keyed : u.Keyed) (key : String) :
    (t.overlay u).get? key =
      match u.get? key with
      | some e => some (e.over (t.get? key))
      | none => t.get? key := by
  induction u generalizing t with
  | nil => rfl
  | leaf k v rest ih =>
    obtain ⟨fresh, rest_keyed⟩ := keyed
    rw [overlay, ih rest_keyed, get?_insert, KeyTree.get?]
    by_cases here : k = key
    · subst k
      simp [get?_eq_none.mpr fresh, Entry.over]
    · simp [here]
  | branch k sub rest _ ih =>
    obtain ⟨fresh, _, rest_keyed⟩ := keyed
    have step : (t.overlay (.branch k sub rest)) =
        (t.insert k (Entry.over (t.get? k) (.branch sub))).overlay rest := by
      rw [overlay]
      split <;> simp_all [Entry.over]
    rw [step, ih rest_keyed, get?_insert, KeyTree.get?]
    by_cases here : k = key
    · subst k
      simp [get?_eq_none.mpr fresh]
    · simp [here]

theorem Keyed.overlay {t u : KeyTree α} (left : t.Keyed) (right : u.Keyed) :
    (t.overlay u).Keyed := by
  induction u generalizing t with
  | nil => exact left
  | leaf k v rest ih => exact ih (left.insert (e := .leaf v) trivial k) right.2
  | branch k sub rest ih_sub ih =>
    rw [KeyTree.overlay]
    split
    · rename_i mine found
      exact ih (left.insert (e := .branch _) (ih_sub (left.branch found) right.2.1) k) right.2.2
    · exact ih (left.insert (e := .branch _) right.2.1 k) right.2.2

/-- The leaves of the upper tree stand. -/
theorem leaf?_overlay_right {t u : KeyTree α} (keyed : u.Keyed) {path : List String} {v : α}
    (found : u.leaf? path = some v) : (t.overlay u).leaf? path = some v := by
  induction path generalizing t u with
  | nil => simp at found
  | cons key path ih =>
    rw [leaf?_cons] at found
    rw [leaf?_cons, get?_overlay keyed]
    split at found
    · rename_i w upper
      simpa [upper, Entry.over] using found
    · rename_i sub upper
      rw [upper]
      cases lower : t.get? key with
      | none => simpa [Entry.over] using found
      | some e =>
        cases e with
        | leaf w => simpa [Entry.over] using found
        | branch mine => exact ih (keyed.branch upper) found
    · contradiction

/-- Every leaf comes from one of the two trees. -/
theorem leaf?_of_overlay {t u : KeyTree α} (keyed : u.Keyed) {path : List String} {v : α}
    (found : (t.overlay u).leaf? path = some v) :
    u.leaf? path = some v ∨ t.leaf? path = some v := by
  induction path generalizing t u with
  | nil => simp at found
  | cons key path ih =>
    rw [leaf?_cons, get?_overlay keyed] at found
    cases upper : u.get? key with
    | none =>
      right
      simpa only [upper, leaf?_cons] using found
    | some e =>
      rw [upper] at found
      cases e with
      | leaf w =>
        left
        simpa only [leaf?_cons, upper, Entry.over] using found
      | branch sub =>
        cases lower : t.get? key with
        | none =>
          left
          simpa only [leaf?_cons, upper, lower, Entry.over] using found
        | some e =>
          rw [lower] at found
          cases e with
          | leaf w =>
            left
            simpa only [leaf?_cons, upper, Entry.over] using found
          | branch mine =>
            rw [leaf?_cons, leaf?_cons, upper, lower]
            exact ih (keyed.branch upper) found

/-- No branch is without entries. -/
def Pruned : KeyTree α → Prop
  | .nil => True
  | .leaf _ _ rest => rest.Pruned
  | .branch _ sub rest => sub.isEmpty = false ∧ sub.Pruned ∧ rest.Pruned

/-- No leaf stands at a path, on the way to it or beyond it. -/
def Free (path : List String) (t : KeyTree α) : Prop :=
  ∀ other, (other <+: path ∨ path <+: other) → t.leaf? other = none

theorem Pruned.branch {t sub : KeyTree α} {key : String} (pruned : t.Pruned)
    (found : t.get? key = some (.branch sub)) : sub.isEmpty = false ∧ sub.Pruned := by
  induction t with
  | nil => simp [KeyTree.get?] at found
  | leaf k v rest ih =>
    rw [KeyTree.get?] at found
    split at found
    · simp at found
    · exact ih pruned found
  | branch k inner rest _ ih =>
    rw [KeyTree.get?] at found
    split at found
    · cases found
      exact ⟨pruned.1, pruned.2.1⟩
    · exact ih pruned.2.2 found

/-- Without empty branches there are entries only where there are leaves. -/
theorem Pruned.exists_leaf {t : KeyTree α} (pruned : t.Pruned) (full : t.isEmpty = false) :
    ∃ path v, t.leaf? path = some v := by
  induction t with
  | nil => simp [isEmpty] at full
  | leaf k v rest _ => exact ⟨[k], v, by simp [leaf?_leaf]⟩
  | branch k sub rest ih _ =>
    obtain ⟨path, v, found⟩ := ih pruned.2.1 pruned.1
    exact ⟨k :: path, v, by simpa [leaf?_branch] using found⟩

/-- A leaf of the lower tree stands where the upper tree has nothing. -/
theorem leaf?_overlay_left {t u : KeyTree α} (keyed : u.Keyed) (pruned : u.Pruned)
    {path : List String} {v : α} (found : t.leaf? path = some v) (free : u.Free path) :
    (t.overlay u).leaf? path = some v := by
  induction path generalizing t u with
  | nil => simp at found
  | cons key path ih =>
    rw [leaf?_cons, get?_overlay keyed]
    cases upper : u.get? key with
    | none => exact found
    | some e =>
      cases e with
      | leaf w =>
        have blocked := free [key] (Or.inl (by simp))
        rw [leaf?_single.mpr upper] at blocked
        contradiction
      | branch sub =>
        obtain ⟨full, sub_pruned⟩ := pruned.branch upper
        cases path with
        | nil =>
          obtain ⟨deeper, w, stands⟩ := sub_pruned.exists_leaf full
          have blocked := free (key :: deeper) (Or.inr (by simp))
          rw [leaf?_cons, upper] at blocked
          exact absurd (stands.symm.trans blocked) (by simp)
        | cons next path =>
          have sub_free : sub.Free (next :: path) := by
            intro other near
            have outside := free (key :: other) (by simpa [List.cons_prefix_cons] using near)
            rwa [leaf?_cons, upper] at outside
          rw [leaf?_cons] at found
          cases lower : t.get? key with
          | none => simp [lower] at found
          | some e =>
            cases e with
            | leaf w => simp [lower] at found
            | branch mine =>
              rw [lower] at found
              exact ih (keyed.branch upper) sub_pruned found sub_free

end SchemaStitch.KeyTree
