import SchemaStitch.Proofs.Pare.Takes

/-! A resolver map under takes, entry by entry. One take changes one entry at most, and what any
number of them changes is known from the fields that they take: an entry in the branch of a type
goes with its field, the branch with the last of its entries, and what stands flat with a field of a
root that has no entry in its branch. -/
namespace SchemaStitch
open Sdl Merge

namespace Pare

section
variable {map : ResolverMap}

/-- Whether a take reaches what stands flat: a resolver, under the name of a field of a root that
has no entry in the branch of the root. -/
structure Take.Reaches (t : Take) (map : ResolverMap) : Prop where
  isRoot : t.isRoot = true
  bare : map.find? [t.type, t.field] = none
  flat : (map.flat? t.field).isSome = true

theorem apply_cases (keyed : map.Keyed) (t : Take) :
    (t.apply map = (map.removeAt [t.type, t.field]).1 ∧ ¬ t.Reaches map) ∨
      (t.apply map = (map.removeAt [t.type, t.field]).1.erase t.field ∧ t.Reaches map) := by
  have answered := KeyTree.removeAt_answer [t.type, t.field] map
  have unflat := flat?_removeAt keyed t.type t.field t.field
  rw [Take.apply, takeResolver]
  generalize map.removeAt [t.type, t.field] = taken at answered unflat ⊢
  obtain ⟨rest, answer⟩ := taken
  cases answer with
  | some e =>
    refine Or.inl ⟨rfl, fun reaches => ?_⟩
    have bare := reaches.bare
    simp [← answered] at bare
  | none =>
    dsimp only at answered unflat ⊢
    rw [unflat]
    split
    · rename_i flat
      obtain ⟨root, flat⟩ := Bool.and_eq_true_iff.mp flat
      exact Or.inr ⟨rfl, root, answered.symm, flat⟩
    · rename_i kept
      exact Or.inl ⟨rfl, fun reaches =>
        kept (Bool.and_eq_true_iff.mpr ⟨reaches.isRoot, reaches.flat⟩)⟩

theorem sublist_keys_apply (keyed : map.Keyed) (t : Take) :
    (t.apply map).keys.Sublist map.keys := by
  have removed := map.sublist_keys_removeAt t.type t.field []
  rcases apply_cases keyed t with ⟨made, _⟩ | ⟨made, _⟩
  · rwa [made]
  · rw [made]
    exact (KeyTree.sublist_keys_erase _ _).trans removed

/-- A take changes no branch but that of its type. -/
theorem get?_apply_branch (keyed : map.Keyed) (t : Take) {key : Name} {sub : ResolverMap}
    (found : map.get? key = some (.branch sub)) :
    (t.apply map).get? key =
      if t.type = key then KeyTree.Entry.less [t.field] (.branch sub) else some (.branch sub) := by
  have removed : (map.removeAt [t.type, t.field]).1.get? key =
      if t.type = key then KeyTree.Entry.less [t.field] (.branch sub) else some (.branch sub) := by
    rw [KeyTree.get?_removeAt keyed]
    split
    · rename_i same
      rw [same, found]
      rfl
    · exact found
  rcases apply_cases keyed t with ⟨made, _⟩ | ⟨made, reaches⟩
  · rwa [made]
  · have apart : t.field ≠ key := by
      rintro rfl
      have flat := reaches.flat
      simp [ResolverMap.flat?, found, ResolverMap.resolverOf?] at flat
    rw [made, (keyed.removeAt _).get?_erase, if_neg apart, removed]

/-- A take changes nothing that stands flat but what it reaches. -/
theorem get?_apply_leaf (keyed : map.Keyed) (t : Take) {key : Name} {l : Leaf}
    (found : map.get? key = some (.leaf l)) :
    ((t.apply map).get? key = none ∧ t.Reaches map ∧ t.field = key) ∨
      ((t.apply map).get? key = some (.leaf l) ∧ ¬ (t.Reaches map ∧ t.field = key)) := by
  have removed : (map.removeAt [t.type, t.field]).1.get? key = some (.leaf l) := by
    rw [KeyTree.get?_removeAt keyed]
    split
    · rename_i same
      rw [same, found]
      rfl
    · exact found
  rcases apply_cases keyed t with ⟨made, passes⟩ | ⟨made, reaches⟩
  · rw [made]
    exact Or.inr ⟨removed, fun reached => passes reached.1⟩
  · rw [made, (keyed.removeAt _).get?_erase]
    by_cases same : t.field = key
    · exact Or.inl ⟨if_pos same, reaches, same⟩
    · exact Or.inr ⟨(if_neg same).trans removed, fun reached => same reached.2⟩

theorem find?_apply_self (keyed : map.Keyed) (t : Take) :
    (t.apply map).find? [t.type, t.field] = none := by
  rw [KeyTree.find?_eq_bind]
  cases found : map.get? t.type with
  | none =>
    rw [KeyTree.get?_of_sublist (sublist_keys_apply keyed t) found]
    rfl
  | some e =>
    cases e with
    | leaf l =>
      rcases get?_apply_leaf keyed t found with ⟨gone, _⟩ | ⟨kept, _⟩
      · rw [gone]
        rfl
      · rw [kept]
        rfl
    | branch sub =>
      rw [get?_apply_branch keyed t found, if_pos rfl, KeyTree.Entry.less]
      split
      · rfl
      · change (sub.erase t.field).find? [t.field] = none
        rw [KeyTree.find?_eq_bind, (keyed.branch found).get?_erase_self]
        rfl

section
variable {takes : List Take}

theorem takes_less (keyed : map.Keyed) : (takes.foldl Take.apply map).Less map := by
  induction takes generalizing map with
  | nil => exact .refl keyed
  | cons t rest ih =>
    have first := takeResolver_less t.isRoot t.type keyed t.field
    exact (ih first.keyed).trans first

theorem sublist_keys_takes (keyed : map.Keyed) :
    (takes.foldl Take.apply map).keys.Sublist map.keys := by
  induction takes generalizing map with
  | nil => exact .refl _
  | cons t rest ih => exact (ih (keyed_apply keyed t)).trans (sublist_keys_apply keyed t)

theorem find?_taken (keyed : map.Keyed) {t : Take} (member : t ∈ takes) :
    (takes.foldl Take.apply map).find? [t.type, t.field] = none := by
  induction takes generalizing map with
  | nil => cases member
  | cons u rest ih =>
    rcases List.mem_cons.mp member with rfl | member
    · have later : (rest.foldl Take.apply (t.apply map)).Less (t.apply map) :=
        takes_less (keyed_apply keyed t)
      by_contra stands
      exact later.entries _ stands (find?_apply_self keyed t)
    · exact ih (keyed_apply keyed u) member

/-- A branch goes, or is left with some of its entries. Takes of its type do not leave it empty. -/
theorem branch_takes (keyed : map.Keyed) {type : Name} {sub : ResolverMap}
    (found : map.get? type = some (.branch sub)) :
    ((takes.foldl Take.apply map).get? type = none ∧ ∃ t ∈ takes, t.type = type) ∨
      ∃ rest, (takes.foldl Take.apply map).get? type = some (.branch rest) ∧
        rest.keys.Sublist sub.keys ∧
        (rest.isEmpty = true → sub.isEmpty = true ∧ ∀ t ∈ takes, t.type ≠ type) := by
  induction takes generalizing map sub with
  | nil => exact Or.inr ⟨sub, found, .refl _, fun empty => ⟨empty, by simp⟩⟩
  | cons t rest ih =>
    have keyed_next := keyed_apply keyed t
    have next := get?_apply_branch keyed t found
    by_cases same : t.type = type
    · rw [if_pos same, KeyTree.Entry.less] at next
      split at next
      · exact Or.inl ⟨KeyTree.get?_of_sublist (sublist_keys_takes keyed_next) next, t,
          List.mem_cons_self, same⟩
      · rename_i full
        rcases ih keyed_next next with ⟨gone, u, member, own⟩ | ⟨left, stands, part, last⟩
        · exact Or.inl ⟨gone, u, List.mem_cons_of_mem t member, own⟩
        · exact Or.inr ⟨left, stands, part.trans (sub.sublist_keys_erase t.field),
            fun empty => absurd (last empty).1 full⟩
    · rw [if_neg same] at next
      rcases ih keyed_next next with ⟨gone, u, member, own⟩ | ⟨left, stands, part, last⟩
      · exact Or.inl ⟨gone, u, List.mem_cons_of_mem t member, own⟩
      · refine Or.inr ⟨left, stands, part, fun empty => ⟨(last empty).1, fun u member => ?_⟩⟩
        rcases List.mem_cons.mp member with rfl | member
        · exact same
        · exact (last empty).2 u member

theorem flat?_of_leaf {key : Name} {l : Leaf} (found : map.get? key = some (.leaf l)) :
    (map.flat? key).isSome = l.isResolver := by
  rw [ResolverMap.flat?, found]
  rfl

/-- Whether takes reach what stands flat under a name: with a field of a root that has no entry for
it, or with one that they take twice. -/
def TakenFlat (takes : List Take) (map : ResolverMap) (key : Name) : Prop :=
  ∃ t ∈ takes, t.isRoot = true ∧ t.field = key ∧
    (map.find? [t.type, t.field] = none ∨ 2 ≤ (takes.map Take.place).count t.place)

/-- A take that does not reach what stands flat leaves it to the takes after it. -/
theorem takenFlat_cons (keyed : map.Keyed) {t : Take} {key : Name}
    (flat : (map.flat? key).isSome = true)
    (one : ∀ u ∈ takes, t.place = u.place → t = u) (passes : ¬ (t.Reaches map ∧ t.field = key)) :
    TakenFlat (t :: takes) map key ↔ TakenFlat takes (t.apply map) key := by
  constructor
  · rintro ⟨u, member, root, rfl, reason⟩
    by_cases like : t.place = u.place
    · have same : t = u := (List.mem_cons.mp member).elim Eq.symm fun member => one u member like
      subst u
      rcases reason with bare | twice
      · exact absurd ⟨⟨root, bare, flat⟩, rfl⟩ passes
      · rw [List.map_cons, List.count_cons_self] at twice
        obtain ⟨v, stands, same⟩ :=
          List.mem_map.mp (List.one_le_count_iff.mp (Nat.le_of_succ_le_succ twice))
        obtain rfl := one v stands same.symm
        exact ⟨t, stands, root, rfl, Or.inl (find?_apply_self keyed t)⟩
    · have stands : u ∈ takes := (List.mem_cons.mp member).resolve_left fun same =>
        like (congrArg Take.place same.symm)
      rw [List.map_cons, List.count_cons_of_ne like] at reason
      have other := find?_apply keyed like
      exact ⟨u, stands, root, rfl, reason.imp_left fun bare => other.trans bare⟩
  · rintro ⟨u, member, root, same, reason⟩
    refine ⟨u, List.mem_cons_of_mem t member, root, same, ?_⟩
    by_cases like : t.place = u.place
    · have again : 1 ≤ (takes.map Take.place).count u.place :=
        List.one_le_count_iff.mpr (List.mem_map_of_mem member)
      rw [List.map_cons, like, List.count_cons_self]
      exact Or.inr (by omega)
    · rw [List.map_cons, List.count_cons_of_ne like]
      have other := find?_apply keyed like
      exact reason.imp_left fun bare => other.symm.trans bare

/-- What stands flat goes exactly if it is a resolver that takes reach. -/
theorem leaf_takes (keyed : map.Keyed) {key : Name} {l : Leaf}
    (found : map.get? key = some (.leaf l))
    (one : takes.Pairwise fun t u => t.place = u.place → t = u) :
    ((takes.foldl Take.apply map).get? key = none ∨
        (takes.foldl Take.apply map).get? key = some (.leaf l)) ∧
      ((takes.foldl Take.apply map).get? key = none ↔
        l.isResolver = true ∧ TakenFlat takes map key) := by
  induction takes generalizing map with
  | nil => exact ⟨Or.inr found, by simp [found, TakenFlat]⟩
  | cons t rest ih =>
    obtain ⟨first, one⟩ := List.pairwise_cons.mp one
    have keyed_next := keyed_apply keyed t
    rcases get?_apply_leaf keyed t found with ⟨gone, reaches, same⟩ | ⟨kept, passes⟩
    · have absent : ((t :: rest).foldl Take.apply map).get? key = none :=
        KeyTree.get?_of_sublist (sublist_keys_takes keyed_next) gone
      have resolver : l.isResolver = true := by
        rw [← flat?_of_leaf found, ← same]
        exact reaches.flat
      exact ⟨Or.inl absent, iff_of_true absent
        ⟨resolver, t, List.mem_cons_self, reaches.isRoot, same, Or.inl reaches.bare⟩⟩
    · obtain ⟨either, goes⟩ := ih keyed_next kept one
      refine ⟨either, goes.trans (and_congr_right fun resolver => ?_)⟩
      exact (takenFlat_cons keyed ((flat?_of_leaf found).trans resolver) first passes).symm

/-- How a resolver map follows the fields that go. An entry in the branch of a type goes with its
field and no other does; a branch goes if fields of its type go and no entry is left in it; and what
stands flat goes if it is a resolver that is taken. Nothing else changes, nor does the order. -/
structure Follows (gone : Name × Name → Prop) (flat : Name → Prop) (before after : ResolverMap) :
    Prop where
  order : after.keys.Sublist before.keys
  taken : ∀ place, gone place → after.find? [place.1, place.2] = none
  kept : ∀ place, ¬ gone place →
    after.find? [place.1, place.2] = before.find? [place.1, place.2]
  branch : ∀ type sub, before.get? type = some (.branch sub) →
    (after.get? type = none ∨
      ∃ rest, after.get? type = some (.branch rest) ∧ rest.keys.Sublist sub.keys) ∧
    (after.get? type = none ↔
      (∃ field, gone (type, field)) ∧ ∀ field ∈ sub.keys, gone (type, field))
  leaf : ∀ key l, before.get? key = some (.leaf l) →
    (after.get? key = none ∨ after.get? key = some (.leaf l)) ∧
    (after.get? key = none ↔ l.isResolver = true ∧ flat key)

theorem follows_takes (keyed : map.Keyed)
    (one : takes.Pairwise fun t u => t.place = u.place → t = u) :
    Follows (fun place => ∃ t ∈ takes, t.place = place) (TakenFlat takes map) map
      (takes.foldl Take.apply map) := by
  have kept (place : Name × Name) (untaken : ¬ ∃ t ∈ takes, t.place = place) :
      (takes.foldl Take.apply map).find? [place.1, place.2] = map.find? [place.1, place.2] :=
    find?_takes keyed fun t member same => untaken ⟨t, member, same⟩
  refine ⟨sublist_keys_takes keyed, ?_, kept, fun type sub found => ?_,
    fun key l found => leaf_takes keyed found one⟩
  · rintro place ⟨t, member, rfl⟩
    exact find?_taken keyed member
  · refine ⟨(branch_takes keyed found).imp And.left fun ⟨rest, stands, part, _⟩ =>
      ⟨rest, stands, part⟩, ?_⟩
    constructor
    · intro gone
      rcases branch_takes keyed found with ⟨_, t, member, rfl⟩ | ⟨rest, stands, _⟩
      · refine ⟨⟨t.field, t, member, rfl⟩, fun field own => ?_⟩
        by_contra untaken
        have same := kept (t.type, field) untaken
        rw [KeyTree.find?_absent gone, KeyTree.find?_below found (by simp),
          KeyTree.find?_key] at same
        exact KeyTree.get?_eq_none.mp same.symm own
      · simp [gone] at stands
    · rintro ⟨⟨field, t, member, same⟩, all⟩
      rcases branch_takes keyed found with ⟨gone, _⟩ | ⟨rest, stands, part, last⟩
      · exact gone
      · have full : rest.isEmpty = false := by
          by_contra empty
          exact (last (by simpa using empty)).2 t member (congrArg Prod.fst same)
        -- An entry that is left has a field that goes.
        obtain ⟨other, own, present⟩ := KeyTree.exists_get?_of_full full
        obtain ⟨u, u_member, u_place⟩ := all other (part.mem own)
        have absent : (takes.foldl Take.apply map).find? [u.type, u.field] = none :=
          find?_taken keyed u_member
        obtain ⟨rfl, rfl⟩ := Prod.mk.inj u_place
        rw [KeyTree.find?_below stands (by simp), KeyTree.find?_key] at absent
        exact absurd absent present

end
end

end Pare
end SchemaStitch
