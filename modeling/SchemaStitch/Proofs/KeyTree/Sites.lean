import SchemaStitch.Proofs.KeyTree.Branches

/-! The leaves of a tree with the places where they stand, depth first. Some leaves of a keyed tree,
written in their order into one growing tree, make a tree of the same shape again: nothing is left
but these leaves, and no branch without any. -/
namespace SchemaStitch.KeyTree

variable {α β : Type}

/-- Puts entries into the branch at a path, behind those it holds. Without entries the branch is not
made. -/
def attach (path : List String) (t u : KeyTree α) : KeyTree α :=
  if u.isEmpty then t else t.editAt path (·.append u)

@[simp] theorem attach_root (t : KeyTree α) : (nil : KeyTree α).attach [] t = t := by
  cases t <;> rfl

theorem attach_cons {path : List String} {key : String} {t : KeyTree α}
    (fresh : key ∉ (t.branchAt path).keys) (e : Entry α) (u : KeyTree α) :
    (t.setAt key e path).1.attach path u = t.attach path (cons key e u) := by
  have together : (t.editAt path (·.insert key e)).editAt path (·.append u) =
      t.editAt path (·.append (cons key e u)) := by
    rw [editAt_editAt]
    exact editAt_congr (insert_append fresh e u)
  have full : (cons key e u).isEmpty = false := by cases e <;> rfl
  rw [setAt_eq_editAt, attach, attach, full]
  cases u with
  | nil => exact editAt_congr (by simpa using insert_append fresh e nil)
  | leaf => exact together
  | branch => exact together

theorem attach_branch {path : List String} {key : String} {sub t : KeyTree α}
    (fresh : key ∉ (t.branchAt path).keys) (full : sub.isEmpty = false) :
    t.attach (path ++ [key]) sub = (t.setAt key (.branch sub) path).1 := by
  rw [attach, full, setAt_eq_editAt, editAt_append]
  apply editAt_congr
  rw [editAt]
  exact within_fresh fresh _

theorem branchAt_deeper {path : List String} {key : String} {t : KeyTree α}
    (fresh : key ∉ (t.branchAt path).keys) : t.branchAt (path ++ [key]) = .nil := by
  rw [branchAt_append, branchAt_single, get?_eq_none.mpr fresh]

/-- Keys that a tree lacks and that differ from a key written there are still lacking. -/
theorem lacking_insert {key : String} {keys : List String} {t : KeyTree α} (e : Entry α)
    (fresh : ∀ k ∈ keys, k ∉ t.keys) (differ : key ∉ keys) :
    ∀ k ∈ keys, k ∉ (t.insert key e).keys := by
  intro k member
  have other : k ≠ key := fun same => differ (same ▸ member)
  rw [keys_insert]
  split
  · exact fresh k member
  · simpa [other] using fresh k member

theorem lacking_setAt {path : List String} {key : String} {keys : List String} {t : KeyTree α}
    (e : Entry α) (fresh : ∀ k ∈ keys, k ∉ (t.branchAt path).keys) (differ : key ∉ keys) :
    ∀ k ∈ keys, k ∉ ((t.setAt key e path).1.branchAt path).keys := by
  rw [setAt_eq_editAt, branchAt_editAt]
  exact lacking_insert e fresh differ

/-- What stands behind an entry with another key is found behind it. -/
theorem get?_behind {t : KeyTree α} {key other : String} (fresh : key ∉ t.keys) {e : Entry α}
    (found : t.get? other = some e) (front : Entry α) : (cons key front t).get? other = some e := by
  rw [get?_cons, if_neg, found]
  rintro rfl
  rw [get?_eq_none.mpr fresh] at found
  contradiction

/-- A leaf with the path of its branch and its key. -/
structure Site (α : Type) where
  path : List String
  key : String
  leaf : α

/-- Where a leaf stands. -/
def Site.place (x : Site α) : List String × String := (x.path, x.key)

/-- The leaves of a branch at the path `here`, depth first. -/
def sites (here : List String) : KeyTree α → List (Site α)
  | .nil => []
  | .leaf key v rest => ⟨here, key, v⟩ :: rest.sites here
  | .branch key sub rest => sub.sites (here ++ [key]) ++ rest.sites here

/-- Writes leaves one after another at their places. -/
def writeAll (t : KeyTree α) (xs : List (Site α)) : KeyTree α :=
  xs.foldl (fun t x => (t.setAt x.key (.leaf x.leaf) x.path).1) t

theorem writeAll_cons (t : KeyTree α) (x : Site α) (xs : List (Site α)) :
    t.writeAll (x :: xs) = (t.setAt x.key (.leaf x.leaf) x.path).1.writeAll xs := rfl

theorem writeAll_append (t : KeyTree α) (xs ys : List (Site α)) :
    t.writeAll (xs ++ ys) = (t.writeAll xs).writeAll ys := List.foldl_append

/-- Each branch of a tree stands in another tree at the same path, which holds its keys in the same
order. -/
def Inside (t : KeyTree α) (u : KeyTree β) : Prop :=
  ∀ path, (t.branchAt path).keys.Sublist (u.branchAt path).keys

theorem Inside.keys {t : KeyTree α} {u : KeyTree β} (inside : t.Inside u) :
    t.keys.Sublist u.keys := inside []

theorem branchAt_of_fresh {t : KeyTree α} {key : String} (fresh : key ∉ t.keys)
    (path : List String) : t.branchAt (key :: path) = .nil := by
  rw [branchAt_cons, branchAt_single, get?_eq_none.mpr fresh, branchAt_nil]

theorem Inside.skip {t : KeyTree α} {u : KeyTree β} {key : String} (inside : t.Inside u)
    (fresh : key ∉ u.keys) (e : Entry β) : t.Inside (cons key e u) := by
  intro path
  cases path with
  | nil =>
    rw [branchAt, branchAt, keys_cons]
    exact inside.keys.cons key
  | cons k path =>
    by_cases same : key = k
    · subst k
      rw [branchAt_of_fresh fun member => fresh (inside.keys.subset member)]
      exact List.nil_sublist _
    · rw [branchAt_cons _ _ (cons key e u), branchAt_single, get?_cons, if_neg same,
        ← branchAt_single, ← branchAt_cons]
      exact inside (k :: path)

theorem Inside.leaf {t : KeyTree α} {u : KeyTree β} (inside : t.Inside u) (key : String) (v : α)
    (w : β) : (leaf key v t).Inside (leaf key w u) := by
  intro path
  cases path with
  | nil => exact inside.keys.cons_cons key
  | cons k path =>
    have rest := inside (k :: path)
    rw [branchAt, branchAt] at rest ⊢
    by_cases same : key = k
    · simp [get?, same, KeyTree.keys]
    · simpa only [get?, same, if_false] using rest

theorem Inside.branch {sub t : KeyTree α} {sub' u : KeyTree β} (below : sub.Inside sub')
    (inside : t.Inside u) (key : String) : (branch key sub t).Inside (branch key sub' u) := by
  intro path
  cases path with
  | nil => exact inside.keys.cons_cons key
  | cons k path =>
    have rest := inside (k :: path)
    rw [branchAt, branchAt] at rest ⊢
    by_cases same : key = k
    · simpa only [get?, same, if_true] using below path
    · simpa only [get?, same, if_false] using rest

/-- A tree for a branch of another at the path `here` that holds the given leaves and no more. -/
structure Holds (here : List String) (source : KeyTree β) (xs : List (Site α)) (t : KeyTree α) :
    Prop where
  sites : t.sites here = xs
  keyed : t.Keyed
  pruned : t.Pruned
  inside : t.Inside source

theorem Holds.skip {here : List String} {source : KeyTree β} {xs : List (Site α)} {t : KeyTree α}
    (holds : Holds here source xs t) {key : String} (fresh : key ∉ source.keys) (e : Entry β) :
    Holds here (cons key e source) xs t :=
  ⟨holds.sites, holds.keyed, holds.pruned, holds.inside.skip fresh e⟩

theorem Holds.leaf {here : List String} {source : KeyTree β} {xs : List (Site α)} {t : KeyTree α}
    (holds : Holds here source xs t) {key : String} (fresh : key ∉ source.keys) (v : α) (w : β) :
    Holds here (leaf key w source) (⟨here, key, v⟩ :: xs) (leaf key v t) where
  sites := by rw [KeyTree.sites, holds.sites]
  keyed := ⟨fun member => fresh (holds.inside.keys.subset member), holds.keyed⟩
  pruned := holds.pruned
  inside := holds.inside.leaf key v w

theorem Holds.branch {here : List String} {key : String} {source sub' : KeyTree β}
    {xs ys : List (Site α)} {sub t : KeyTree α} (holds : Holds here source xs t)
    (below : Holds (here ++ [key]) sub' ys sub) (fresh : key ∉ source.keys)
    (full : sub.isEmpty = false) :
    Holds here (branch key sub' source) (ys ++ xs) (branch key sub t) where
  sites := by rw [KeyTree.sites, below.sites, holds.sites]
  keyed := ⟨fun member => fresh (holds.inside.keys.subset member), below.keyed, holds.keyed⟩
  pruned := ⟨full, below.pruned, holds.pruned⟩
  inside := below.inside.branch holds.inside key

/-- Leaves that stand at places of a keyed branch, written in its order into a tree without its
keys, stand there as a tree of the same shape. -/
theorem writeAll_attach {source : KeyTree β} (keyed : source.Keyed) {here : List String}
    {t : KeyTree α} (fresh : ∀ k ∈ source.keys, k ∉ (t.branchAt here).keys) {xs : List (Site α)}
    (part : (xs.map Site.place).Sublist ((source.sites here).map Site.place)) :
    ∃ out, t.writeAll xs = t.attach here out ∧ Holds here source xs out := by
  induction source generalizing here t xs with
  | nil =>
    obtain rfl : xs = [] := by simpa [sites] using part
    exact ⟨.nil, rfl, rfl, trivial, trivial, fun path => by simp [KeyTree.keys]⟩
  | leaf key v rest ih =>
    obtain ⟨key_fresh, rest_fresh⟩ := List.forall_mem_cons.mp fresh
    rw [sites, List.map_cons, List.sublist_cons_iff] at part
    rcases part with part | ⟨places, split, part⟩
    · obtain ⟨out, written, holds⟩ := ih keyed.2 rest_fresh part
      exact ⟨out, written, holds.skip keyed.1 (.leaf v)⟩
    · obtain ⟨x, ys, rfl, place, rfl⟩ := List.map_eq_cons_iff.mp split
      obtain ⟨path, k, w⟩ := x
      obtain ⟨rfl, rfl⟩ : path = here ∧ k = key := by simpa [Site.place] using place
      obtain ⟨out, written, holds⟩ :=
        ih keyed.2 (lacking_setAt (.leaf w) rest_fresh keyed.1) part
      refine ⟨.leaf k w out, ?_, holds.leaf keyed.1 w v⟩
      rw [writeAll_cons, written, attach_cons key_fresh]
      rfl
  | branch key sub rest ih_sub ih =>
    obtain ⟨differ, sub_keyed, rest_keyed⟩ := keyed
    obtain ⟨key_fresh, rest_fresh⟩ := List.forall_mem_cons.mp fresh
    rw [sites, List.map_append, List.sublist_append_iff] at part
    obtain ⟨inner, outer, split, inner_part, outer_part⟩ := part
    obtain ⟨ys, zs, rfl, rfl, rfl⟩ := List.map_eq_append_iff.mp split
    have none_below : ∀ k ∈ sub.keys, k ∉ (t.branchAt (here ++ [key])).keys := by
      simp [branchAt_deeper key_fresh, KeyTree.keys]
    obtain ⟨below, below_written, below_holds⟩ := ih_sub sub_keyed none_below inner_part
    rw [writeAll_append, below_written]
    cases full : below.isEmpty with
    | true =>
      obtain rfl : below = .nil := by cases below <;> simp_all [isEmpty]
      obtain rfl : ys = [] := below_holds.sites.symm
      obtain ⟨out, written, holds⟩ := ih rest_keyed rest_fresh outer_part
      exact ⟨out, written, holds.skip differ (.branch sub)⟩
    | false =>
      obtain ⟨out, written, holds⟩ :=
        ih rest_keyed (lacking_setAt (.branch below) rest_fresh differ) outer_part
      refine ⟨.branch key below out, ?_, holds.branch below_holds differ full⟩
      rw [attach_branch key_fresh full, written, attach_cons key_fresh]
      rfl

/-- Written into the empty tree, such leaves make a tree that holds them and no more. -/
theorem holds_writeAll {source : KeyTree β} (keyed : source.Keyed) {xs : List (Site α)}
    (part : (xs.map Site.place).Sublist ((source.sites []).map Site.place)) :
    Holds [] source xs (nil.writeAll xs) := by
  obtain ⟨out, written, holds⟩ :=
    writeAll_attach keyed (t := .nil) (fun _ _ => by simp [KeyTree.keys]) part
  rwa [written, attach_root]

end SchemaStitch.KeyTree
