import Mathlib.Data.List.Nodup
import SchemaStitch.Merge.Document

/-! Bringing items into a list by identity: an item is settled with the one that stands under its
identity, in its place, or goes to the end. Combining members, root operations and names and folding
definitions all work in this way, so what holds of it holds of all of them. -/
namespace SchemaStitch.Merge
open Sdl

section
variable {m : Type → Type} [Monad m] {α κ : Type} [DecidableEq κ]

/-- Brings an item into a list. An item without identity is like no other. -/
def place (ident : α → Option κ) (settle : α → α → m α) (item : α) : List α → m (List α)
  | [] => return [item]
  | present :: rest =>
    if (ident item).isSome ∧ ident present = ident item then return (← settle present item) :: rest
    else return present :: (← place ident settle item rest)

/-- Brings the items of the right list into the left one, in order. -/
def placeAll (ident : α → Option κ) (settle : α → α → m α) (left : List α) : List α → m (List α)
  | [] => return left
  | item :: rest => do placeAll ident settle (← place ident settle item left) rest

/-- The identity that a name gives. -/
def named (name : α → κ) (x : α) : Option κ := some (name x)

/-- What place an item finds in a list: the end, or that of the first item with its identity. -/
inductive Finds (ident : α → Option κ) (settle : α → α → m α) (item : α) :
    List α → m (List α) → Prop
  | last {l : List α} (fresh : ∀ k, ident item = some k → k ∉ l.filterMap ident) :
      Finds ident settle item l (pure (l ++ [item]))
  | taken {k : κ} {before after : List α} {present : α} (known : ident item = some k)
      (like : ident present = some k) (first : k ∉ before.filterMap ident) :
      Finds ident settle item (before ++ present :: after)
        ((fun x => before ++ x :: after) <$> settle present item)

end

section
variable {m : Type → Type} [Monad m] [LawfulMonad m] {α κ : Type} [DecidableEq κ]
  {ident : α → Option κ} {settle : α → α → m α} {item : α}

omit [DecidableEq κ] in
theorem filterMap_named (name : α → κ) (l : List α) : l.filterMap (named name) = l.map name :=
  congrFun List.filterMap_eq_map l

omit [DecidableEq κ] in
theorem mem_idents_cons {x : α} {l : List α} {k : κ} :
    k ∈ (x :: l).filterMap ident ↔ ident x = some k ∨ k ∈ l.filterMap ident := by
  simp [List.mem_filterMap]

omit [DecidableEq κ] in
/-- Of items with distinct identities, no other one has the identity of one. -/
theorem unlike_of_nodup {before after : List α} {x y : α} {k : κ}
    (nodup : ((before ++ x :: after).filterMap ident).Nodup) (known : ident x = some k)
    (member : y ∈ before ∨ y ∈ after) : ident y ≠ some k := by
  intro like
  rw [List.filterMap_append, List.filterMap_cons_some known, List.nodup_append] at nodup
  rcases member with member | member
  · exact nodup.2.2 k (List.mem_filterMap.mpr ⟨y, member, like⟩) k List.mem_cons_self rfl
  · exact (List.nodup_cons.mp nodup.2.1).1 (List.mem_filterMap.mpr ⟨y, member, like⟩)

variable (ident settle item) in
theorem finds_place (l : List α) : Finds ident settle item l (place ident settle item l) := by
  induction l with
  | nil => exact .last (fun k _ => List.not_mem_nil)
  | cons present rest ih =>
    rw [place]
    split
    · rename_i like
      obtain ⟨k, known⟩ := Option.isSome_iff_exists.mp like.1
      rw [← map_eq_pure_bind]
      change Finds ident settle item ([] ++ present :: rest)
        ((fun x => [] ++ x :: rest) <$> settle present item)
      exact .taken known (like.2.trans known) List.not_mem_nil
    · rename_i differ
      have apart (k : κ) (known : ident item = some k) : ident present ≠ some k := by
        intro like
        exact differ ⟨by simp [known], like.trans known.symm⟩
      generalize place ident settle item rest = placed at ih
      cases ih with
      | last fresh =>
        rw [pure_bind]
        change Finds ident settle item (present :: rest) (pure (present :: rest ++ [item]))
        refine .last fun k known member => ?_
        rcases mem_idents_cons.mp member with like | member
        · exact apart k known like
        · exact fresh k known member
      | @taken k before after other known like first =>
        rw [map_eq_pure_bind, bind_assoc]
        simp only [pure_bind]
        rw [← map_eq_pure_bind]
        change Finds ident settle item (present :: before ++ other :: after)
          ((fun x => present :: before ++ x :: after) <$> settle other item)
        refine .taken known like fun member => ?_
        rcases mem_idents_cons.mp member with like | member
        · exact apart k known like
        · exact first member

theorem place_fresh {l : List α} (fresh : ∀ k, ident item = some k → k ∉ l.filterMap ident) :
    place ident settle item l = pure (l ++ [item]) := by
  have found := finds_place ident settle item l
  generalize place ident settle item l = placed at found ⊢
  cases found with
  | last => rfl
  | @taken k before after present known like first =>
    have stands : k ∈ (before ++ present :: after).filterMap ident :=
      List.mem_filterMap.mpr ⟨present, by simp, like⟩
    exact absurd stands (fresh k known)

/-- Items that are all new are added without anything being settled. -/
theorem placeAll_fresh {left right : List α} (nodup : ((left ++ right).filterMap ident).Nodup) :
    placeAll ident settle left right = pure (left ++ right) := by
  induction right generalizing left with
  | nil => simp [placeAll]
  | cons item rest ih =>
    rw [List.append_cons] at nodup
    have fresh (k : κ) (known : ident item = some k) : k ∉ left.filterMap ident := by
      have start := (nodup.sublist (List.Sublist.filterMap ident (List.sublist_append_left _ rest)))
      rw [List.filterMap_append, List.nodup_append] at start
      intro stands
      exact start.2.2 k stands k (by simp [known]) rfl
    rw [placeAll, place_fresh fresh, pure_bind, ih nodup, List.append_assoc]
    rfl

end

section
variable {σ α β κ : Type} [DecidableEq κ] {ident : α → Option κ} {settle : α → α → StateM σ α}
  {item : α} {l left right : List α}

/-- Items with one identity have one value, and what they are settled to has it too. -/
def Keeps (ident : α → Option κ) (settle : α → α → StateM σ α) (f : α → β) : Prop :=
  ∀ x y k s, ident x = some k → ident y = some k →
    f x = f y ∧ f ((settle x y).run s).1 = f x

theorem nodup_place (keeps : Keeps ident settle ident) (nodup : (l.filterMap ident).Nodup) (s : σ) :
    (((place ident settle item l).run s).1.filterMap ident).Nodup := by
  have found := finds_place ident settle item l
  generalize place ident settle item l = placed at found ⊢
  cases found with
  | last fresh =>
    change ((l ++ [item]).filterMap ident).Nodup
    rw [List.filterMap_append, List.nodup_append]
    refine ⟨nodup, ?_, ?_⟩
    · cases known : ident item <;> simp [known]
    · rintro k stands _ own rfl
      obtain ⟨x, member, known⟩ := List.mem_filterMap.mp own
      rw [List.mem_singleton.mp member] at known
      exact fresh k known stands
  | @taken k before after present known like =>
    have same := (keeps present item k s like known).2
    change ((before ++ ((settle present item).run s).1 :: after).filterMap ident).Nodup
    simpa [List.filterMap_append, List.filterMap_cons, same, like] using nodup

theorem mem_map_place {f : α → β} (keeps : Keeps ident settle f) (s : σ) (b : β) :
    b ∈ ((place ident settle item l).run s).1.map f ↔ b ∈ l.map f ∨ b = f item := by
  have found := finds_place ident settle item l
  generalize place ident settle item l = placed at found ⊢
  cases found with
  | last fresh =>
    change b ∈ (l ++ [item]).map f ↔ _
    simp
  | @taken k before after present known like =>
    obtain ⟨own, same⟩ := keeps present item k s like known
    change b ∈ (before ++ ((settle present item).run s).1 :: after).map f ↔ _
    simp only [List.map_append, List.map_cons, same, List.mem_append, List.mem_cons, ← own]
    tauto

theorem forall_place {P : α → Prop} (all : ∀ x ∈ l, P x) (own : P item)
    (kept : ∀ x y k s, ident x = some k → ident y = some k → P x → P y →
      P ((settle x y).run s).1) (s : σ) : ∀ x ∈ ((place ident settle item l).run s).1, P x := by
  have found := finds_place ident settle item l
  generalize place ident settle item l = placed at found ⊢
  intro x member
  cases found with
  | last fresh =>
    change x ∈ l ++ [item] at member
    rcases List.mem_append.mp member with member | member
    · exact all x member
    · rwa [List.mem_singleton.mp member]
  | @taken k before after present known like =>
    change x ∈ before ++ ((settle present item).run s).1 :: after at member
    rcases List.mem_append.mp member with member | member
    · exact all x (List.mem_append_left _ member)
    · rcases List.mem_cons.mp member with rfl | member
      · exact kept present item k s like known (all present (by simp)) own
      · exact all x (by simp [member])

theorem nodup_placeAll (keeps : Keeps ident settle ident) (nodup : (left.filterMap ident).Nodup)
    (s : σ) : (((placeAll ident settle left right).run s).1.filterMap ident).Nodup := by
  induction right generalizing left s with
  | nil => exact nodup
  | cons item rest ih => exact ih (nodup_place keeps nodup s) _

theorem mem_map_placeAll {f : α → β} (keeps : Keeps ident settle f) (s : σ) (b : β) :
    b ∈ ((placeAll ident settle left right).run s).1.map f ↔ b ∈ left.map f ∨ b ∈ right.map f := by
  induction right generalizing left s with
  | nil =>
    change b ∈ left.map f ↔ _
    simp
  | cons item rest ih =>
    rw [List.map_cons, List.mem_cons, ← or_assoc, ← mem_map_place keeps s b]
    exact ih _

theorem forall_placeAll {P : α → Prop} (all : ∀ x ∈ left, P x) (own : ∀ x ∈ right, P x)
    (kept : ∀ x y k s, ident x = some k → ident y = some k → P x → P y →
      P ((settle x y).run s).1) (s : σ) :
    ∀ x ∈ ((placeAll ident settle left right).run s).1, P x := by
  induction right generalizing left s with
  | nil => exact all
  | cons item rest ih =>
    have first := forall_place all (own item List.mem_cons_self) kept s
    exact ih first (fun x member => own x (List.mem_cons_of_mem _ member)) _

end

section
variable {m : Type → Type} [Monad m] [LawfulMonad m] {α κ : Type} [DecidableEq κ]
  {ident : α → Option κ} {f : α → α → α}

/-- Brings an item into a list where settling asks nobody. -/
def placed (ident : α → Option κ) (f : α → α → α) (item : α) (l : List α) : List α :=
  Id.run (place ident (fun x y => pure (f x y)) item l)

/-- Brings the items of the right list into the left one where settling asks nobody. -/
def placedAll (ident : α → Option κ) (f : α → α → α) (left right : List α) : List α :=
  right.foldl (fun l item => placed ident f item l) left

@[simp] theorem placed_nil (item : α) : placed ident f item [] = [item] := rfl

theorem placed_cons (item present : α) (rest : List α) :
    placed ident f item (present :: rest) =
      if (ident item).isSome ∧ ident present = ident item then f present item :: rest
      else present :: placed ident f item rest := by
  rw [placed, place]
  split <;> rfl

theorem placed_cases (ident : α → Option κ) (f : α → α → α) (x : α) (l : List α) :
    placed ident f x l = l ++ [x] ∨
      ∃ k before y after, l = before ++ y :: after ∧ ident x = some k ∧ ident y = some k ∧
        placed ident f x l = before ++ f y x :: after := by
  have found := finds_place ident (fun x y => (pure (f x y) : Id α)) x l
  generalize made : place ident (fun x y => (pure (f x y) : Id α)) x l = out at found
  have same : placed ident f x l = out := made
  cases found with
  | last fresh => exact Or.inl same
  | @taken k before after y known like first =>
    exact Or.inr ⟨k, before, y, after, rfl, known, like, same⟩

theorem place_pure (item : α) (l : List α) :
    place ident (fun x y => (pure (f x y) : m α)) item l = pure (placed ident f item l) := by
  induction l with
  | nil => rfl
  | cons present rest ih =>
    rw [place, placed_cons]
    split
    · rw [pure_bind]
    · rw [ih, pure_bind]

theorem placeAll_pure (left right : List α) :
    placeAll ident (fun x y => (pure (f x y) : m α)) left right =
      pure (placedAll ident f left right) := by
  induction right generalizing left with
  | nil => rfl
  | cons item rest ih =>
    rw [placeAll, place_pure, pure_bind, ih]
    rfl

theorem forall_placed {P : α → Prop} {l : List α}
    (kept : ∀ x y k, ident x = some k → ident y = some k → P x → P y → P (f x y))
    (all : ∀ x ∈ l, P x) {item : α} (own : P item) : ∀ x ∈ placed ident f item l, P x := by
  have placed : ∀ x ∈ ((place ident (fun x y => (pure (f x y) : StateM Unit α)) item l).run ()).1,
      P x := forall_place all own (fun x y k _ => kept x y k) ()
  rwa [place_pure] at placed

theorem nodup_placedAll {left : List α} (nodup : (left.filterMap ident).Nodup)
    (keeps : ∀ x y k, ident x = some k → ident y = some k → ident (f x y) = some k)
    (right : List α) : ((placedAll ident f left right).filterMap ident).Nodup := by
  have steady : Keeps ident (fun x y => (pure (f x y) : StateM Unit α)) ident :=
    fun x y k _ left right => ⟨left.trans right.symm, (keeps x y k left right).trans left.symm⟩
  have placed : (((placeAll ident (fun x y => (pure (f x y) : StateM Unit α)) left right).run
      ()).1.filterMap ident).Nodup := nodup_placeAll steady nodup ()
  rwa [placeAll_pure] at placed

end

section
variable {m : Type → Type} [Monad m] {α : Type}

theorem bring_eq_place (name : α → Name) (settle : α → α → m α) (item : α) (l : List α) :
    bring name settle item l = place (named name) settle item l := by
  induction l with
  | nil => rfl
  | cons present rest ih => simp [bring, place, named, ih]

theorem combine_eq_placeAll (name : α → Name) (settle : α → α → m α) (left right : List α) :
    combine name settle left right = placeAll (named name) settle left right := by
  induction right generalizing left with
  | nil => rfl
  | cons item rest ih => simp only [combine, placeAll, bring_eq_place, ih]

theorem put_eq_placed (operations : List (OperationKind × Name)) (o : OperationKind × Name) :
    combineOperations.put operations o =
      placed (named Prod.fst) (fun _ own => own) o operations := by
  induction operations with
  | nil => rfl
  | cons present rest ih =>
    rw [combineOperations.put, placed_cons, ih]
    simp [named]

theorem combineOperations_eq_placedAll (left right : List (OperationKind × Name)) :
    combineOperations left right = placedAll (named Prod.fst) (fun _ own => own) left right := by
  rw [combineOperations, placedAll]
  congr
  funext operations o
  exact put_eq_placed operations o

theorem placed_name (n : Name) (names : List Name) :
    placed (named id) (fun present _ => present) n names =
      if n ∈ names then names else names ++ [n] := by
  induction names with
  | nil => rfl
  | cons present rest ih =>
    rw [placed_cons, ih]
    by_cases same : present = n
    · simp [named, same]
    · by_cases member : n ∈ rest <;> simp [named, same, Ne.symm same, member]

theorem collect_eq_placedAll (seen names : List Name) :
    unionNames.collect seen names = placedAll (named id) (fun present _ => present) seen names := by
  induction names generalizing seen with
  | nil => rfl
  | cons n rest ih =>
    rw [unionNames.collect, placedAll, List.foldl_cons, placed_name, ih, ih]
    by_cases known : n ∈ seen <;> simp [known, placedAll]

/-- What a definition is settled by. Operations without a name are settled with nothing. -/
def identity (d : Definition) : Option Definition.Key :=
  if d.key = .executable none then none else some d.key

theorem identity_eq_some {d : Definition} {k : Definition.Key} :
    identity d = some k ↔ d.key = k ∧ k ≠ .executable none := by
  rw [identity]
  split <;> simp_all [eq_comm]

theorem matches_iff {d present : Definition} :
    d.key.matches present.key ↔ (identity d).isSome ∧ identity present = identity d := by
  by_cases anonymous : d.key = .executable none
  · simp [Definition.Key.matches, identity, anonymous]
  · have known : identity d = some d.key := if_neg anonymous
    rw [known, identity_eq_some, Definition.Key.matches]
    simp only [Option.isSome_some, true_and, Bool.and_eq_true, bne_iff_ne, beq_iff_eq, ne_eq,
      anonymous, not_false_eq_true, and_true]
    exact eq_comm

theorem known_of_match {d present : Definition} (same : d.key.matches present.key = true) :
    ∃ k, identity d = some k ∧ identity present = some k := by
  obtain ⟨own, like⟩ := matches_iff.mp same
  obtain ⟨k, known⟩ := Option.isSome_iff_exists.mp own
  exact ⟨k, known, like.trans known⟩

variable (p : ConflictPolicy m)

theorem fold_eq_place (d : Definition) (into : Document) :
    fold p d into = place identity (definitions p) d into := by
  induction into with
  | nil => rfl
  | cons present rest ih => simp only [fold, place, matches_iff, ih]

theorem foldAll_eq_placeAll (into later : Document) :
    foldAll p into later = placeAll identity (definitions p) into later := by
  induction later generalizing into with
  | nil => rfl
  | cons d rest ih => simp only [foldAll, placeAll, fold_eq_place, ih]

end
end SchemaStitch.Merge
