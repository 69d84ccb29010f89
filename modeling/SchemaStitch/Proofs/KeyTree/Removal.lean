import SchemaStitch.Proofs.KeyTree.Leaves

/-! Taking entries out of a key tree. What is taken is gone, no leaf is new, paths that lie apart
answer as before, and a tree in which no key stands twice stays one. -/
namespace SchemaStitch.KeyTree

variable {α : Type}

theorem keys_erase {t : KeyTree α} {key other : String} (member : other ∈ (t.erase key).keys) :
    other ∈ t.keys := by
  induction t with
  | nil => exact member
  | leaf k v rest ih => by_cases same : k = key <;> grind [erase, keys]
  | branch k sub rest _ ih => by_cases same : k = key <;> grind [erase, keys]

theorem Keyed.erase {t : KeyTree α} (keyed : t.Keyed) (key : String) : (t.erase key).Keyed := by
  induction t with
  | nil => trivial
  | leaf k v rest ih =>
    rw [KeyTree.erase]
    split
    · exact keyed.2
    · exact ⟨fun member => keyed.1 (keys_erase member), ih keyed.2⟩
  | branch k sub rest _ ih =>
    rw [KeyTree.erase]
    split
    · exact keyed.2.2
    · exact ⟨fun member => keyed.1 (keys_erase member), keyed.2.1, ih keyed.2.2⟩

theorem Keyed.get?_erase_self {t : KeyTree α} (keyed : t.Keyed) (key : String) :
    (t.erase key).get? key = none := by
  induction t with
  | nil => rfl
  | leaf k v rest ih =>
    rw [KeyTree.erase]
    split
    · subst k
      exact get?_eq_none.mpr keyed.1
    · rename_i differ
      simpa [KeyTree.get?, differ] using ih keyed.2
  | branch k sub rest _ ih =>
    rw [KeyTree.erase]
    split
    · subst k
      exact get?_eq_none.mpr keyed.1
    · rename_i differ
      simpa [KeyTree.get?, differ] using ih keyed.2.2

theorem Keyed.get?_erase {t : KeyTree α} (keyed : t.Keyed) (key other : String) :
    (t.erase key).get? other = if key = other then none else t.get? other := by
  split
  · subst other
    exact keyed.get?_erase_self key
  · exact get?_erase_of_ne t ‹_›

/-- The entry that an entry leads to. -/
def Entry.find? (path : List String) : Entry α → Option (Entry α)
  | .leaf v => if path.isEmpty then some (.leaf v) else none
  | .branch sub => if path.isEmpty then some (.branch sub) else sub.find? path

theorem find?_eq_bind (key : String) (path : List String) (t : KeyTree α) :
    t.find? (key :: path) = (t.get? key).bind (Entry.find? path) := by
  cases path with
  | nil =>
    cases found : t.get? key with
    | none => simp [find?, find, found, Except.toOption]
    | some e => cases e <;> simp [find?, find, found, Except.toOption, Entry.find?]
  | cons next path =>
    cases found : t.get? key with
    | none => simp [find?, find, found, Except.toOption]
    | some e => cases e <;> simp [find?, find, found, Except.toOption, Entry.find?]

theorem isEmpty_iff {t : KeyTree α} : t.isEmpty = true ↔ t = .nil := by
  cases t <;> simp [isEmpty]

@[simp] theorem find?_nil (path : List String) : (nil : KeyTree α).find? path = none := by
  cases path with
  | nil => rfl
  | cons key path => rw [find?_eq_bind]; rfl

theorem find?_key (t : KeyTree α) (key : String) : t.find? [key] = t.get? key := by
  rw [find?_eq_bind]
  cases t.get? key with
  | none => rfl
  | some e => cases e <;> rfl

theorem find?_below {t sub : KeyTree α} {key : String} (found : t.get? key = some (.branch sub))
    {path : List String} (below : path ≠ []) : t.find? (key :: path) = sub.find? path := by
  rw [find?_eq_bind, found, Option.bind_some, Entry.find?, if_neg (by simpa using below)]

theorem find?_beyond_leaf {t : KeyTree α} {key : String} {v : α}
    (found : t.get? key = some (.leaf v)) {path : List String} (below : path ≠ []) :
    t.find? (key :: path) = none := by
  rw [find?_eq_bind, found, Option.bind_some, Entry.find?, if_neg (by simpa using below)]

theorem find?_absent {t : KeyTree α} {key : String} (absent : t.get? key = none)
    (path : List String) : t.find? (key :: path) = none := by
  rw [find?_eq_bind, absent, Option.bind_none]

theorem branch_of_find? {t : KeyTree α} {key : String} {path : List String} {e : Entry α}
    (found : t.find? (key :: path) = some e) (below : path ≠ []) :
    ∃ sub, t.get? key = some (.branch sub) ∧ sub.find? path = some e := by
  cases here : t.get? key with
  | none => rw [find?_absent here] at found; cases found
  | some own =>
    cases own with
    | leaf v => rw [find?_beyond_leaf here below] at found; cases found
    | branch sub => exact ⟨sub, rfl, (find?_below here below).symm.trans found⟩

theorem find?_of_branch {t sub : KeyTree α} {key : String} {path : List String} {e : Entry α}
    (found : t.get? key = some (.branch sub)) (stands : sub.find? path = some e) :
    t.find? (key :: path) = some e := by
  have below : path ≠ [] := by rintro rfl; cases stands
  rw [find?_below found below, stands]

theorem find?_unbranched {t : KeyTree α} {key : String} {path : List String}
    (unbranched : ∀ sub, t.get? key ≠ some (.branch sub)) (below : path ≠ []) :
    t.find? (key :: path) = none := by
  cases found : t.find? (key :: path) with
  | none => rfl
  | some e =>
    obtain ⟨sub, here, _⟩ := branch_of_find? found below
    exact absurd here (unbranched sub)

theorem removeAt_deeper (key next : String) (path : List String) (t : KeyTree α) :
    t.removeAt (key :: next :: path) =
      match t.get? key with
      | some (.branch sub) =>
        (if (sub.removeAt (next :: path)).1.isEmpty then t.erase key
          else t.insert key (.branch (sub.removeAt (next :: path)).1),
          (sub.removeAt (next :: path)).2)
      | _ => (t, none) := rfl

/-- What is answered is what stood there. -/
theorem removeAt_answer (path : List String) (t : KeyTree α) :
    (t.removeAt path).2 = t.find? path := by
  induction path generalizing t with
  | nil => rfl
  | cons key path ih =>
    rw [find?_eq_bind]
    cases path with
    | nil =>
      cases found : t.get? key with
      | none => simp [removeAt, found]
      | some e => cases e <;> simp [removeAt, found, Entry.find?]
    | cons next path =>
      rw [removeAt_deeper]
      cases found : t.get? key with
      | none => rfl
      | some e =>
        cases e with
        | leaf v => rfl
        | branch sub => exact ih sub

/-- What stands under a key once something has been taken from the branch there. -/
def Entry.less (path : List String) : Entry α → Option (Entry α)
  | .leaf v => some (.leaf v)
  | .branch sub =>
    if (sub.removeAt path).1.isEmpty then none else some (.branch (sub.removeAt path).1)

theorem get?_removeAt {t : KeyTree α} (keyed : t.Keyed) (key next : String) (path : List String)
    (other : String) :
    (t.removeAt (key :: next :: path)).1.get? other =
      if key = other then (t.get? key).bind (Entry.less (next :: path)) else t.get? other := by
  rw [removeAt_deeper]
  split
  · rename_i sub found
    dsimp only
    rw [found, Option.bind_some, Entry.less]
    split
    · exact keyed.get?_erase key other
    · exact get?_insert t key _ other
  · rename_i shallow
    split
    · subst other
      cases found : t.get? key with
      | none => rfl
      | some e =>
        cases e with
        | leaf v => rfl
        | branch sub => exact absurd found (shallow sub)
    · rfl

theorem Keyed.removeAt {t : KeyTree α} (keyed : t.Keyed) (path : List String) :
    (t.removeAt path).1.Keyed := by
  induction path generalizing t with
  | nil => exact keyed
  | cons key path ih =>
    cases path with
    | nil => exact keyed.erase key
    | cons next path =>
      rw [removeAt_deeper]
      split
      · rename_i sub found
        dsimp only
        split
        · exact keyed.erase key
        · exact keyed.insert (e := .branch _) (ih (keyed.branch found)) key
      · exact keyed

theorem leaf?_of_erase {t : KeyTree α} (keyed : t.Keyed) {key : String} {path : List String} {v : α}
    (found : (t.erase key).leaf? path = some v) : t.leaf? path = some v := by
  cases path with
  | nil => simp at found
  | cons other path =>
    rw [leaf?_eq_bind, keyed.get?_erase] at found
    rw [leaf?_eq_bind]
    split at found
    · simp at found
    · exact found

/-- No leaf is new. -/
theorem leaf?_of_removeAt {t : KeyTree α} (keyed : t.Keyed) {taken path : List String} {v : α}
    (found : (t.removeAt taken).1.leaf? path = some v) : t.leaf? path = some v := by
  induction taken generalizing t path with
  | nil => exact found
  | cons key taken ih =>
    cases taken with
    | nil => exact leaf?_of_erase keyed found
    | cons next taken =>
      cases path with
      | nil => simp at found
      | cons other path =>
        rw [leaf?_eq_bind, get?_removeAt keyed] at found
        rw [leaf?_eq_bind]
        split at found
        · subst other
          cases here : t.get? key with
          | none => simp [here] at found
          | some e =>
            rw [here, Option.bind_some] at found
            cases e with
            | leaf w => exact found
            | branch sub =>
              rw [Entry.less] at found
              split at found
              · simp at found
              · exact ih (keyed.branch here) found
        · exact found

/-- No leaf is left where something was taken. -/
theorem leaf?_removeAt {t : KeyTree α} (keyed : t.Keyed) (path : List String) :
    (t.removeAt path).1.leaf? path = none := by
  induction path generalizing t with
  | nil => rfl
  | cons key path ih =>
    rw [leaf?_eq_bind]
    cases path with
    | nil => rw [removeAt, keyed.get?_erase_self, Option.bind_none]
    | cons next path =>
      rw [get?_removeAt keyed, if_pos rfl]
      cases found : t.get? key with
      | none => rfl
      | some e =>
        cases e with
        | leaf v => rfl
        | branch sub =>
          rw [Option.bind_some, Entry.less]
          split
          · rfl
          · exact ih (keyed.branch found)

theorem find?_of_erase {t : KeyTree α} (keyed : t.Keyed) {key : String} {path : List String}
    (stands : (t.erase key).find? path ≠ none) : t.find? path ≠ none := by
  cases path with
  | nil => exact absurd rfl stands
  | cons other path =>
    rw [find?_eq_bind, keyed.get?_erase] at stands
    rw [find?_eq_bind]
    split at stands
    · exact absurd rfl stands
    · exact stands

/-- No entry is new. -/
theorem find?_of_removeAt {t : KeyTree α} (keyed : t.Keyed) {taken path : List String}
    (stands : (t.removeAt taken).1.find? path ≠ none) : t.find? path ≠ none := by
  induction taken generalizing t path with
  | nil => exact stands
  | cons key taken ih =>
    cases taken with
    | nil => exact find?_of_erase keyed stands
    | cons next taken =>
      cases path with
      | nil => exact absurd rfl stands
      | cons other path =>
        rw [find?_eq_bind, get?_removeAt keyed] at stands
        rw [find?_eq_bind]
        split at stands
        · subst other
          cases here : t.get? key with
          | none => simp [here] at stands
          | some e =>
            rw [here, Option.bind_some] at stands
            cases e with
            | leaf w => exact stands
            | branch sub =>
              rw [Entry.less] at stands
              cases path with
              | nil => simp [Entry.find?]
              | cons step path =>
                split at stands
                · exact absurd rfl stands
                · exact ih (keyed.branch here) stands
        · exact stands

/-- What is erased under a key leaves other keys as they are, and lies apart from paths that go on
after a leaf. -/
theorem Keyed.find?_erase {t : KeyTree α} (keyed : t.Keyed) {key other next : String}
    (apart : key = other → t.find? [other, next] = none) :
    (t.erase key).find? [other, next] = t.find? [other, next] := by
  by_cases same : key = other
  · rw [apart same, find?_eq_bind, keyed.get?_erase, if_pos same]
    rfl
  · rw [find?_eq_bind, find?_eq_bind, keyed.get?_erase, if_neg same]

/-- A removal goes through the branch under the first key, or does nothing. -/
theorem removeAt_cases (t : KeyTree α) (key : String) {path : List String} (below : path ≠ []) :
    (∃ sub, t.get? key = some (.branch sub)) ∨
      (t.removeAt (key :: path) = (t, none) ∧ ∀ sub, t.get? key ≠ some (.branch sub)) := by
  obtain ⟨next, path, rfl⟩ := List.exists_cons_of_ne_nil below
  rw [removeAt_deeper]
  split
  · rename_i sub found
    exact Or.inl ⟨sub, found⟩
  · rename_i unbranched
    exact Or.inr ⟨rfl, unbranched⟩

theorem get?_removeAt_way {t sub : KeyTree α} (keyed : t.Keyed) {key : String}
    (found : t.get? key = some (.branch sub)) {path : List String} (below : path ≠ []) :
    (t.removeAt (key :: path)).1.get? key =
      if (sub.removeAt path).1.isEmpty then none
      else some (.branch (sub.removeAt path).1) := by
  obtain ⟨next, path, rfl⟩ := List.exists_cons_of_ne_nil below
  rw [get?_removeAt keyed, if_pos rfl, found]
  rfl

theorem get?_removeAt_other {t : KeyTree α} (keyed : t.Keyed) {key other : String}
    (differ : key ≠ other) (path : List String) : (t.removeAt (key :: path)).1.get? other = t.get? other := by
  cases path with
  | nil => exact get?_erase_of_ne t differ
  | cons next path => rw [get?_removeAt keyed, if_neg differ]

/-- A path that is neither on the way to what is removed nor beyond it answers as before. -/
theorem find?_removeAt_apart {t : KeyTree α} (keyed : t.Keyed) {path other : List String}
    (shorter : ¬ other <+: path) (longer : ¬ path <+: other) :
    (t.removeAt path).1.find? other = t.find? other := by
  induction path generalizing t other with
  | nil => exact absurd List.nil_prefix longer
  | cons key path ih =>
    cases other with
    | nil => rfl
    | cons k other =>
      by_cases same : key = k
      · subst k
        rw [List.cons_prefix_cons, not_and] at shorter longer
        have shorter := shorter rfl
        have longer := longer rfl
        have below : path ≠ [] := by rintro rfl; simp at longer
        have deeper : other ≠ [] := by rintro rfl; simp at shorter
        rcases removeAt_cases t key below with ⟨sub, found⟩ | ⟨same, _⟩
        · have way := get?_removeAt_way keyed found below
          have kept := ih (keyed.branch found) shorter longer
          rw [find?_below found deeper, ← kept]
          split at way
          · rename_i empty
            rw [find?_absent way, isEmpty_iff.mp empty, find?_nil]
          · rw [find?_below way deeper]
        · rw [same]
      · rw [find?_eq_bind, find?_eq_bind, get?_removeAt_other keyed same]

theorem Keyed.find?_removeAt {t : KeyTree α} (keyed : t.Keyed) {type field : String}
    {place : String × String} (apart : (type, field) ≠ place) :
    (t.removeAt [type, field]).1.find? [place.1, place.2] = t.find? [place.1, place.2] := by
  refine find?_removeAt_apart keyed (fun shorter => apart ?_) (fun longer => apart ?_)
  · obtain ⟨own, other⟩ : place.1 = type ∧ place.2 = field := by
      simpa using shorter.eq_of_length rfl
    exact Prod.ext own.symm other.symm
  · obtain ⟨own, other⟩ : type = place.1 ∧ field = place.2 := by
      simpa using longer.eq_of_length rfl
    exact Prod.ext own other

theorem sublist_keys_erase (t : KeyTree α) (key : String) : (t.erase key).keys.Sublist t.keys := by
  induction t with
  | nil => exact .refl _
  | leaf k v rest ih =>
    rw [erase]
    split
    · exact List.sublist_cons_self k rest.keys
    · exact ih.cons_cons k
  | branch k sub rest _ ih =>
    rw [erase]
    split
    · exact List.sublist_cons_self k rest.keys
    · exact ih.cons_cons k

theorem sublist_keys_removeAt (t : KeyTree α) (key next : String) (path : List String) :
    (t.removeAt (key :: next :: path)).1.keys.Sublist t.keys := by
  rw [removeAt_deeper]
  split
  · rename_i sub found
    have stands : key ∈ t.keys := Classical.byContradiction fun fresh => by
      simp [get?_eq_none.mpr fresh] at found
    dsimp only
    split
    · exact t.sublist_keys_erase key
    · exact (keys_insert t key _).trans (if_pos stands) ▸ .refl t.keys
  · exact .refl _

theorem get?_of_sublist {t u : KeyTree α} (part : t.keys.Sublist u.keys) {key : String}
    (absent : u.get? key = none) : t.get? key = none :=
  get?_eq_none.mpr fun member => get?_eq_none.mp absent (part.mem member)

theorem exists_get?_of_full {t : KeyTree α} (full : t.isEmpty = false) :
    ∃ key ∈ t.keys, t.get? key ≠ none := by
  cases t with
  | nil => cases full
  | leaf k v rest => exact ⟨k, List.mem_cons_self, by simp [get?]⟩
  | branch k sub rest => exact ⟨k, List.mem_cons_self, by simp [get?]⟩

end SchemaStitch.KeyTree
