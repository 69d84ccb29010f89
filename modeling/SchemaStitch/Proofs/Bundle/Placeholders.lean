import SchemaStitch.Proofs.Bundle.Gaps
import SchemaStitch.Proofs.Bundle.Trees

/-! Trees of merges of which any may fill gaps. A resolver that fills a gap is an entry like any
other to later merges: it gives way to what joins on its right and takes the place of what joins on
its left. So the last contributor with a resolver for a field is the one that is bound, unless a
merge among those that come after it has filled the gap there. -/
namespace SchemaStitch
open Sdl

namespace ResolverMap

/-- Whether a map holds resolvers by type and field, and nothing else. -/
def ByField (map : ResolverMap) : Prop :=
  ∀ path l, map.leaf? path = some l → ∃ type field r, path = [type, field] ∧ l = .resolver r

theorem ByField.overlay {lower upper : ResolverMap} (keyed : upper.Keyed) (below : lower.ByField)
    (above : upper.ByField) : ByField (lower.overlay upper) := by
  intro path l found
  rcases KeyTree.leaf?_of_overlay keyed found with here | here
  · exact above path l here
  · exact below path l here

theorem ByField.setAt {map : ResolverMap} (by_field : map.ByField) (type field : Name)
    (r : Resolver) : ByField (map.setAt field (entry r) [type]).1 := by
  rintro (_ | ⟨key, _ | ⟨next, rest⟩⟩) l found
  · simp at found
  · rw [KeyTree.leaf?_single, KeyTree.get?_setAt] at found
    split at found
    · cases found
    · exact by_field [key] l (KeyTree.leaf?_single.mpr found)
  · rw [KeyTree.leaf?_eq_bind, KeyTree.get?_setAt] at found
    split at found
    · subst key
      rw [Option.bind_some, KeyTree.Entry.leaf?, KeyTree.leaf?_eq_bind, KeyTree.get?_insert] at found
      split at found
      · subst next
        obtain ⟨bare, same⟩ : rest = [] ∧ Leaf.resolver r = l := by
          simpa [entry, KeyTree.Entry.leaf?] using found
        exact ⟨type, field, r, by rw [bare], same.symm⟩
      · rw [← KeyTree.leaf?_eq_bind] at found
        exact by_field _ l (KeyTree.leaf?_branchAt found)
    · rw [← KeyTree.leaf?_eq_bind] at found
      exact by_field _ l found

theorem ByField.renewed {P : Resolver → Resolver → Prop} {before after : ResolverMap}
    (by_field : before.ByField) (renewed : Renewed P before after) : after.ByField := by
  intro path l found
  have answered := renewed path
  rw [found] at answered
  cases stood : before.leaf? path with
  | none =>
    rw [stood] at answered
    cases answered
  | some own =>
    obtain ⟨type, field, _, rfl, _⟩ := by_field path own stood
    rw [stood] at answered
    cases answered
    exact ⟨type, field, _, rfl, rfl⟩

/-- Where such a map has nothing, it has nothing on the way there or beyond. -/
theorem ByField.free {map : ResolverMap} (by_field : map.ByField) {type field : Name}
    (vacant : map.leaf? [type, field] = none) : map.Free [type, field] := by
  intro other near
  by_contra taken
  obtain ⟨l, found⟩ := Option.ne_none_iff_exists'.mp taken
  obtain ⟨otherType, otherField, _, rfl, _⟩ := by_field other l found
  have same : otherType = type ∧ otherField = field := by
    rcases near with before | beyond
    · simpa using before
    · obtain ⟨rfl, rfl⟩ : type = otherType ∧ field = otherField := by simpa using beyond
      exact ⟨rfl, rfl⟩
  rw [same.1, same.2, vacant] at found
  contradiction

end ResolverMap

theorem Snapshot.byField_foldAll {history : List Snapshot} (sound : ∀ s ∈ history, s.Sound)
    (all : ∀ s ∈ history, s.resolvers.ByField) : (foldAll history).ByField := by
  induction history using List.reverseRecOn with
  | nil =>
    intro path l found
    simp [foldAll] at found
  | append_singleton history s ih =>
    rw [foldAll_append]
    exact ResolverMap.ByField.overlay (sound s (by simp)).keyed
      (ih (fun s member => sound s (by simp [member])) fun s member => all s (by simp [member]))
      (all s (by simp))

namespace Bundle

variable {σ : Type}

/-- A bundle whose map and snapshots hold resolvers by type and field only, and whose map has a
resolver wherever a snapshot has one. -/
structure Tabular (b : Bundle) : Prop where
  map : b.map.ByField
  history : ∀ s ∈ b.history, s.resolvers.ByField
  within : ∀ s ∈ b.history, ∀ path, s.resolvers.leaf? path ≠ none → b.map.leaf? path ≠ none

theorem unmerged?_eq (b : Bundle) (type field : Name) :
    b.unmerged? [type, field] = (b.map.resolver? type field).map Resolver.unmerged := by
  rw [unmerged?, ResolverMap.resolver?_eq_leaf?]

theorem Tabular.leaf_none {b : Bundle} (tabular : b.Tabular) {path : List String} :
    b.map.leaf? path = none ↔ b.unmerged? path = none := by
  rw [unmerged?]
  cases found : b.map.leaf? path with
  | none => simp
  | some l =>
    obtain ⟨_, _, r, _, rfl⟩ := tabular.map path l found
    simp [Leaf.resolver?]

theorem stands_of_unmerged? {b : Bundle} {type field : Name} {r : Resolver}
    (found : b.unmerged? [type, field] = some r) :
    ∃ own, b.map.leaf? [type, field] = some (.resolver own) ∧ own.unmerged = r := by
  rw [unmerged?_eq] at found
  obtain ⟨own, typed, rfl⟩ := Option.map_eq_some_iff.mp found
  exact ⟨own, ResolverMap.leaf?_of_resolver? typed, rfl⟩

/-- A leaf stays when gaps are filled. -/
theorem Woven.stands {m : Type → Type} {o : MergeOptions m} {merged : Bundle}
    {folded filled out : ResolverMap} (woven : Woven o merged folded filled out) {type field : Name}
    {r : Resolver} (found : folded.leaf? [type, field] = some (.resolver r)) :
    ∃ b, out.leaf? [type, field] = some (.resolver b) ∧ b.unmerged = r.unmerged := by
  have kept : filled.leaf? [type, field] = some (.resolver r) := by
    cases switch : o.createMissing with
    | false => rw [woven.off switch, found]
    | true =>
      obtain ⟨s, _, gaps, _⟩ := woven.on switch
      apply ResolverMap.leaf?_of_resolver?
      apply gaps.keeps
      simp [ResolverMap.resolver?_eq_leaf?, found, Leaf.resolver?]
  exact woven.renewed.resolver kept

/-- Where there was no leaf there is none, or one that fills the gap. -/
theorem Woven.gap {m : Type → Type} {o : MergeOptions m} {merged : Bundle}
    {folded filled out : ResolverMap} (woven : Woven o merged folded filled out) {type field : Name}
    (vacant : folded.leaf? [type, field] = none) :
    out.leaf? [type, field] = none ∨
      ∃ b id, out.leaf? [type, field] = some (.resolver b) ∧ b.unmerged = .fieldReader id := by
  rcases woven.renewed.recast_cases woven.plain [type, field] with
    ⟨_, after⟩ | ⟨r, b, before, after, same⟩
  · exact Or.inl after
  · right
    cases switch : o.createMissing with
    | false =>
      rw [woven.off switch, vacant] at before
      contradiction
    | true =>
      obtain ⟨s, _, gaps, _⟩ := woven.on switch
      obtain ⟨⟨id, rfl⟩, _⟩ := gaps.gained type field r
        (by simp [ResolverMap.resolver?_eq_leaf?, vacant])
        (by simp [ResolverMap.resolver?_eq_leaf?, before, Leaf.resolver?])
      exact ⟨b, id, after, same⟩

/-- What a merge takes in together has at a field what its right side has, else what its left side
has, else nothing. -/
theorem foldAll_values {left right : Bundle} (left_tabular : left.Tabular)
    (right_tabular : right.Tabular) {l r : Snapshot} (l_sound : l.Sound) (r_sound : r.Sound)
    (r_pruned : r.resolvers.Pruned)
    (l_stripped : ResolverMap.Renewed (fun r r' => r' = r.unmerged) left.map l.resolvers)
    (r_stripped : ResolverMap.Renewed (fun r r' => r' = r.unmerged) right.map r.resolvers)
    (sound : ∀ s ∈ left.history ++ right.history ++ [l, r], s.Sound) (type field : Name) :
    (Snapshot.foldAll (left.history ++ right.history ++ [l, r])).leaf? [type, field] =
      ((right.unmerged? [type, field]).or (left.unmerged? [type, field])).map Leaf.resolver := by
  have split : Snapshot.foldAll (left.history ++ right.history ++ [l, r]) =
      ((Snapshot.foldAll (left.history ++ right.history)).overlay l.resolvers).overlay
        r.resolvers := by
    rw [show [l, r] = [l] ++ [r] from rfl, ← List.append_assoc, Snapshot.foldAll_append,
      Snapshot.foldAll_append]
  cases on_right : right.unmerged? [type, field] with
  | some x =>
    obtain ⟨own, stands, rfl⟩ := stands_of_unmerged? on_right
    obtain ⟨_, captured, rfl⟩ := r_stripped.resolver stands
    rw [split, KeyTree.leaf?_overlay_right r_sound.keyed captured]
    rfl
  | none =>
    have r_vacant := (r_stripped.none_iff [type, field]).mpr (right_tabular.leaf_none.mpr on_right)
    cases on_left : left.unmerged? [type, field] with
    | some x =>
      obtain ⟨own, stands, rfl⟩ := stands_of_unmerged? on_left
      obtain ⟨_, captured, rfl⟩ := l_stripped.resolver stands
      have lower := KeyTree.leaf?_overlay_right
        (t := Snapshot.foldAll (left.history ++ right.history)) l_sound.keyed captured
      have free := (right_tabular.map.renewed r_stripped).free r_vacant
      rw [split, KeyTree.leaf?_overlay_left r_sound.keyed r_pruned lower free]
      rfl
    | none =>
      have l_vacant := (l_stripped.none_iff [type, field]).mpr (left_tabular.leaf_none.mpr on_left)
      have vacant : ∀ s ∈ left.history ++ right.history ++ [l, r],
          s.resolvers.leaf? [type, field] = none := by
        refine forall_joined (fun s member => ?_) (fun s member => ?_) l_vacant r_vacant
        · by_contra taken
          exact left_tabular.within s member _ taken (left_tabular.leaf_none.mpr on_left)
        · by_contra taken
          exact right_tabular.within s member _ taken (right_tabular.leaf_none.mpr on_right)
      by_contra taken
      obtain ⟨leaf, found⟩ := Option.ne_none_iff_exists'.mp taken
      obtain ⟨s, member, stands⟩ := Snapshot.leaf?_foldAll sound found
      rw [vacant s member] at stands
      contradiction

/-- What a bundle has for a field, from what stands there before gaps are filled. -/
theorem Woven.value {m : Type → Type} {o : MergeOptions m} {first b : Bundle}
    {folded filled : ResolverMap} (woven : Woven o first folded filled b.map) {type field : Name}
    {known : Option Resolver} (here : folded.leaf? [type, field] = known.map Leaf.resolver)
    (bare : ∀ r, known = some r → r.unmerged = r) :
    b.unmerged? [type, field] = known ∨
      known = none ∧ ∃ id, b.unmerged? [type, field] = some (.fieldReader id) := by
  cases known with
  | some r =>
    obtain ⟨own, stands, recast⟩ := woven.stands here
    left
    simp [unmerged?, stands, Leaf.resolver?, recast, bare r rfl]
  | none =>
    rcases woven.gap here with vacant | ⟨own, id, stands, reads⟩
    · left
      simp [unmerged?, vacant]
    · right
      exact ⟨rfl, id, by simp [unmerged?, stands, Leaf.resolver?, reads]⟩

/-- Where either side of a merge has a leaf, the merge has one. -/
theorem leaf_of_values {left right merged : Bundle} (left_tabular : left.Tabular)
    (right_tabular : right.Tabular)
    (values : ∀ type field, merged.unmerged? [type, field] = none →
      (right.unmerged? [type, field]).or (left.unmerged? [type, field]) = none)
    {path : List String} (stood : left.map.leaf? path ≠ none ∨ right.map.leaf? path ≠ none) :
    merged.map.leaf? path ≠ none := by
  have place {b : Bundle} (tabular : b.Tabular) (taken : b.map.leaf? path ≠ none) :
      ∃ type field, path = [type, field] := by
    obtain ⟨l, found⟩ := Option.ne_none_iff_exists'.mp taken
    obtain ⟨type, field, _, here, _⟩ := tabular.map path l found
    exact ⟨type, field, here⟩
  obtain ⟨type, field, rfl⟩ := stood.elim (place left_tabular) (place right_tabular)
  intro vacant
  have gone : merged.unmerged? [type, field] = none := by simp [unmerged?, vacant]
  obtain ⟨on_right, on_left⟩ := Option.or_eq_none_iff.mp (values type field gone)
  rcases stood with taken | taken
  · exact taken (left_tabular.leaf_none.mpr on_left)
  · exact taken (right_tabular.leaf_none.mpr on_right)

/-- What a merge has for a field is what its right side has, else what its left side has, else what
fills the gap, if it is filled. -/
theorem merge_values {o : MergeOptions (StateM σ)} {left right merged : Bundle} {next : Nat}
    (left_reached : left.Reached) (right_reached : right.Reached) (left_tabular : left.Tabular)
    (right_tabular : right.Tabular) (merges : MergesTo o left right next merged) :
    merged.Tabular ∧ ∀ type field,
      merged.unmerged? [type, field] =
          (right.unmerged? [type, field]).or (left.unmerged? [type, field]) ∨
        (right.unmerged? [type, field]).or (left.unmerged? [type, field]) = none ∧
          ∃ id, merged.unmerged? [type, field] = some (.fieldReader id) := by
  have left_sound := left_reached.sound
  have right_sound := right_reached.sound
  obtain ⟨s, run⟩ := merges
  obtain ⟨first, map, _, _, stitched, made⟩ := merge_steps run
  obtain ⟨l, r, n, recorded, _, l_sound, r_sound, r_pruned, l_stripped, r_stripped⟩ :=
    mergedHistory_run left_sound right_sound next
  rw [recorded] at stitched made
  have same : merged.map = map := by rw [made, map_setResolvers]
  have history : merged.history = left.history ++ right.history ++ [l, r] := by
    rw [made]
    rfl
  have sound := forall_joined left_sound.history right_sound.history l_sound r_sound
  have by_field := forall_joined left_tabular.history right_tabular.history
    (left_tabular.map.renewed l_stripped) (right_tabular.map.renewed r_stripped)
  obtain ⟨filled, filled_by_field, woven⟩ := weave (P := ResolverMap.ByField)
    (fun map type field id holds => ResolverMap.ByField.setAt holds type field _) sound
    (Snapshot.byField_foldAll sound by_field) stitched
  rw [← same] at woven
  have values (type field : Name) := woven.value
    (foldAll_values left_tabular right_tabular l_sound r_sound r_pruned l_stripped r_stripped sound
      type field) (by
      intro x value
      rcases Option.or_eq_some_iff.mp value with here | ⟨_, here⟩ <;>
      · obtain ⟨own, _, rfl⟩ := stands_of_unmerged? here
        exact Resolver.unmerged_unmerged own)
  have kept {path : List String}
      (stood : left.map.leaf? path ≠ none ∨ right.map.leaf? path ≠ none) :
      merged.map.leaf? path ≠ none := by
    refine leaf_of_values left_tabular right_tabular (fun type field gone => ?_) stood
    rcases values type field with here | ⟨vacant, _⟩
    · rw [← here, gone]
    · exact vacant
  refine ⟨⟨filled_by_field.renewed woven.renewed, ?_, ?_⟩, values⟩
  · rw [history]
    exact by_field
  · rw [history]
    refine forall_joined (fun s member path taken => ?_) (fun s member path taken => ?_)
      (fun path taken => ?_) fun path taken => ?_
    · exact kept (Or.inl (left_tabular.within s member path taken))
    · exact kept (Or.inr (right_tabular.within s member path taken))
    · exact kept (Or.inl fun vacant => taken ((l_stripped.none_iff path).mpr vacant))
    · exact kept (Or.inr fun vacant => taken ((r_stripped.none_iff path).mpr vacant))

end Bundle

/-- A tree of merges with what each of them made. -/
inductive MergeTree where
  | contributor (b : Bundle)
  | merge (merged : Bundle) (left right : MergeTree)

namespace MergeTree

/-- What the tree made in the end. -/
def result : MergeTree → Bundle
  | .contributor b => b
  | .merge merged _ _ => merged

/-- The contributors, in order. -/
def contributors : MergeTree → List Bundle
  | .contributor b => [b]
  | .merge _ left right => left.contributors ++ right.contributors

/-- Whether a tree was made by merges, each with options of its own, from contributors without
history whose maps hold resolvers by type and field only. -/
inductive Made : MergeTree → Prop
  | contributor {b : Bundle} (reached : b.Reached) (history : b.history = [])
      (by_field : b.map.ByField) : Made (.contributor b)
  | merge {σ : Type} {o : MergeOptions (StateM σ)} {left right : MergeTree} {merged : Bundle}
      {next : Nat} (before : left.Made) (beside : right.Made)
      (merges : Bundle.MergesTo o left.result right.result next merged) :
      Made (.merge merged left right)

/-- Whether the last merge of a tree made a resolver for a field for which neither side had one. -/
def Fills (type field : Name) : MergeTree → Prop
  | .contributor _ => False
  | .merge merged left right => merged.map.resolver? type field ≠ none ∧
      left.result.map.resolver? type field = none ∧ right.result.map.resolver? type field = none

/-- Whether a tree is a part of another, in which some contributors come before and some after it. -/
inductive Within (sub : MergeTree) : List Bundle → List Bundle → MergeTree → Prop
  | here : Within sub [] [] sub
  | left {before after : List Bundle} {merged : Bundle} {left right : MergeTree}
      (inside : Within sub before after left) :
      Within sub before (after ++ right.contributors) (.merge merged left right)
  | right {before after : List Bundle} {merged : Bundle} {left right : MergeTree}
      (inside : Within sub before after right) :
      Within sub (left.contributors ++ before) after (.merge merged left right)

/-- Whether some merge, none of whose contributors is among the first `n` of the tree, has filled the
gap at a field. -/
def FilledAfter (n : Nat) (type field : Name) (t : MergeTree) : Prop :=
  ∃ sub before after, Within sub before after t ∧ n ≤ before.length ∧ sub.Fills type field

theorem Within.contributors {sub t : MergeTree} {before after : List Bundle}
    (within : Within sub before after t) :
    t.contributors = before ++ sub.contributors ++ after := by
  induction within with
  | here => simp
  | left inside ih => simp [MergeTree.contributors, ih]
  | right inside ih => simp [MergeTree.contributors, ih]

theorem contributors_ne_nil (t : MergeTree) : t.contributors ≠ [] := by
  induction t with
  | contributor b => simp [contributors]
  | merge merged left right left_ih right_ih => simp [contributors, left_ih]

theorem Within.before_lt {sub t : MergeTree} {before after : List Bundle}
    (within : Within sub before after t) : before.length < t.contributors.length := by
  have some_inside := List.length_pos_iff.mpr sub.contributors_ne_nil
  rw [within.contributors, List.length_append, List.length_append]
  omega

theorem filledAfter_merge {n : Nat} {type field : Name} {merged : Bundle} {left right : MergeTree} :
    (MergeTree.merge merged left right).FilledAfter n type field ↔
      n = 0 ∧ (MergeTree.merge merged left right).Fills type field ∨
        left.FilledAfter n type field ∨
        right.FilledAfter (n - left.contributors.length) type field := by
  constructor
  · rintro ⟨sub, before, after, within, later, fills⟩
    cases within with
    | here => exact Or.inl ⟨by simpa using later, fills⟩
    | left inside => exact Or.inr (Or.inl ⟨sub, _, _, inside, later, fills⟩)
    | right inside =>
      rw [List.length_append] at later
      exact Or.inr (Or.inr ⟨sub, _, _, inside, by omega, fills⟩)
  · rintro (⟨rfl, fills⟩ | ⟨sub, before, after, inside, later, fills⟩ |
      ⟨sub, before, after, inside, later, fills⟩)
    · exact ⟨_, [], [], .here, Nat.le_refl _, fills⟩
    · exact ⟨sub, before, _, .left inside, later, fills⟩
    · refine ⟨sub, left.contributors ++ before, after, .right inside, ?_, fills⟩
      rw [List.length_append]
      omega

theorem FilledAfter.lt {n : Nat} {type field : Name} {t : MergeTree}
    (filled : t.FilledAfter n type field) : n < t.contributors.length := by
  obtain ⟨sub, before, after, within, later, _⟩ := filled
  exact Nat.lt_of_le_of_lt later within.before_lt

/-- After a contributor of the right side only merges of that side can have filled a gap. -/
theorem filledAfter_right {k : Nat} {type field : Name} {merged : Bundle} {left right : MergeTree} :
    (MergeTree.merge merged left right).FilledAfter (left.contributors.length + k + 1) type field ↔
      right.FilledAfter (k + 1) type field := by
  have later : left.contributors.length + k + 1 - left.contributors.length = k + 1 := by omega
  rw [filledAfter_merge, later]
  constructor
  · rintro (⟨first, _⟩ | inside | inside)
    · omega
    · have bound := inside.lt
      omega
    · exact inside
  · intro inside
    exact Or.inr (Or.inr inside)

/-- After a contributor of the left side merges of that side can have filled a gap, and all of the
right side. -/
theorem filledAfter_left {k : Nat} {type field : Name} {merged : Bundle} {left right : MergeTree}
    (inside : k < left.contributors.length) :
    (MergeTree.merge merged left right).FilledAfter (k + 1) type field ↔
      left.FilledAfter (k + 1) type field ∨ right.FilledAfter 0 type field := by
  have first : k + 1 - left.contributors.length = 0 := by omega
  rw [filledAfter_merge, first]
  simp

theorem Made.sound {t : MergeTree} (made : t.Made) : t.result.Reached ∧ t.result.Tabular := by
  induction made with
  | contributor reached history by_field =>
    exact ⟨reached, by_field, by simp [result, history], by simp [result, history]⟩
  | merge before beside merges left_ih right_ih =>
    exact ⟨left_ih.1.merge right_ih.1 merges,
      (Bundle.merge_values left_ih.1 right_ih.1 left_ih.2 right_ih.2 merges).1⟩

variable {σ : Type} {type field : Name}

theorem resolver?_eq_none {b : Bundle} :
    b.map.resolver? type field = none ↔ b.unmerged? [type, field] = none := by
  rw [Bundle.unmerged?_eq, Option.map_eq_none_iff]

theorem merged_value {known merged : Option Resolver} {P : Prop} {r : Resolver}
    (value : merged = known ∨ known = none ∧ P) (here : known = some r) : merged = some r := by
  rcases value with same | ⟨vacant, _⟩
  · exact same.trans here
  · rw [here] at vacant
    contradiction

/-- Where no contributor has a resolver there is one that fills the gap, if some merge filled it. -/
theorem Made.silent_value {t : MergeTree} (made : t.Made)
    (silent : ∀ c ∈ t.contributors, c.map.resolver? type field = none) :
    (t.FilledAfter 0 type field → ∃ id, t.result.unmerged? [type, field] = some (.fieldReader id)) ∧
      (¬ t.FilledAfter 0 type field → t.result.unmerged? [type, field] = none) := by
  induction made with
  | @contributor b reached history by_field =>
    have vacant : b.unmerged? [type, field] = none := by
      rw [Bundle.unmerged?_eq, silent b (by simp [contributors])]
      rfl
    refine ⟨?_, fun _ => vacant⟩
    rintro ⟨sub, before, after, within, _, fills⟩
    cases within
    exact fills.elim
  | @merge σ o left right merged next before beside merges left_ih right_ih =>
    obtain ⟨left_reached, left_tabular⟩ := before.sound
    obtain ⟨right_reached, right_tabular⟩ := beside.sound
    have values := (Bundle.merge_values left_reached right_reached left_tabular right_tabular
      merges).2 type field
    have on_left := left_ih fun c member => silent c (List.mem_append_left _ member)
    have on_right := right_ih fun c member => silent c (List.mem_append_right _ member)
    rw [filledAfter_merge, Nat.zero_sub, result]
    by_cases right_filled : right.FilledAfter 0 type field
    · obtain ⟨id, value⟩ := on_right.1 right_filled
      refine ⟨fun _ => ⟨id, merged_value values (by rw [value, Option.some_or])⟩, fun unfilled => ?_⟩
      exact absurd (Or.inr (Or.inr right_filled)) unfilled
    · have right_vacant := on_right.2 right_filled
      by_cases left_filled : left.FilledAfter 0 type field
      · obtain ⟨id, value⟩ := on_left.1 left_filled
        refine ⟨fun _ => ⟨id, merged_value values (by rw [right_vacant, value, Option.none_or])⟩,
          fun unfilled => ?_⟩
        exact absurd (Or.inr (Or.inl left_filled)) unfilled
      · have left_vacant := on_left.2 left_filled
        rw [right_vacant, left_vacant, Option.none_or] at values
        rcases values with vacant | ⟨_, id, reads⟩
        · refine ⟨?_, fun _ => vacant⟩
          rintro (⟨_, written, _⟩ | inside | inside)
          · exact absurd (resolver?_eq_none.mpr vacant) written
          · exact absurd inside left_filled
          · exact absurd inside right_filled
        · refine ⟨fun _ => ⟨id, reads⟩, fun unfilled => absurd (Or.inl ⟨rfl, ?_⟩) unfilled⟩
          refine ⟨?_, resolver?_eq_none.mpr left_vacant, resolver?_eq_none.mpr right_vacant⟩
          rw [ne_eq, resolver?_eq_none, reads]
          simp

/-- A contributor is the last with a resolver for a field, and what stands there is its resolver, or
what fills the gap that some merge of later contributors found. -/
structure DecidedBy (t : MergeTree) (type field : Name) (before : List Bundle) (c : Bundle)
    (after : List Bundle) (own : Resolver) : Prop where
  split : t.contributors = before ++ c :: after
  found : c.map.resolver? type field = some own
  silent : ∀ d ∈ after, d.map.resolver? type field = none
  filled : t.FilledAfter (before.length + 1) type field →
    ∃ id, t.result.unmerged? [type, field] = some (.fieldReader id)
  unfilled : ¬ t.FilledAfter (before.length + 1) type field →
    t.result.unmerged? [type, field] = some own.unmerged

section
variable {merged c : Bundle} {left right : MergeTree} {before after : List Bundle} {own : Resolver}
  {P : Prop}

/-- What the right side decides is decided. -/
theorem DecidedBy.on_right (decided : right.DecidedBy type field before c after own)
    (values : merged.unmerged? [type, field] =
        (right.result.unmerged? [type, field]).or (left.result.unmerged? [type, field]) ∨
      (right.result.unmerged? [type, field]).or (left.result.unmerged? [type, field]) = none ∧ P) :
    (MergeTree.merge merged left right).DecidedBy type field (left.contributors ++ before) c after
      own := by
  have place : (MergeTree.merge merged left right).FilledAfter
        ((left.contributors ++ before).length + 1) type field ↔
      right.FilledAfter (before.length + 1) type field := by
    rw [List.length_append]
    exact filledAfter_right
  refine ⟨?_, decided.found, decided.silent, ?_, ?_⟩
  · rw [contributors, decided.split, List.append_assoc]
  · rw [place]
    intro inside
    obtain ⟨id, value⟩ := decided.filled inside
    exact ⟨id, merged_value values (by rw [value, Option.some_or])⟩
  · rw [place]
    intro nowhere
    exact merged_value values (by rw [decided.unfilled nowhere, Option.some_or])

/-- What the left side decides is decided, if no contributor of the right side has a resolver. What
fills the gap there comes in over it. -/
theorem DecidedBy.on_left (decided : left.DecidedBy type field before c after own)
    (made_right : right.Made)
    (right_silent : ∀ d ∈ right.contributors, d.map.resolver? type field = none)
    (values : merged.unmerged? [type, field] =
        (right.result.unmerged? [type, field]).or (left.result.unmerged? [type, field]) ∨
      (right.result.unmerged? [type, field]).or (left.result.unmerged? [type, field]) = none ∧ P) :
    (MergeTree.merge merged left right).DecidedBy type field before c (after ++ right.contributors)
      own := by
  obtain ⟨right_filled, right_unfilled⟩ := made_right.silent_value right_silent
  have place : (MergeTree.merge merged left right).FilledAfter (before.length + 1) type field ↔
      left.FilledAfter (before.length + 1) type field ∨ right.FilledAfter 0 type field := by
    apply filledAfter_left
    rw [decided.split, List.length_append, List.length_cons]
    omega
  refine ⟨?_, decided.found, ?_, ?_, ?_⟩
  · rw [contributors, decided.split, List.append_assoc]
    rfl
  · intro d member
    exact (List.mem_append.mp member).elim (decided.silent d) (right_silent d)
  · rw [place]
    intro somewhere
    by_cases inside : right.FilledAfter 0 type field
    · obtain ⟨id, value⟩ := right_filled inside
      exact ⟨id, merged_value values (by rw [value, Option.some_or])⟩
    · obtain ⟨id, value⟩ := decided.filled (somewhere.resolve_right inside)
      exact ⟨id, merged_value values (by rw [right_unfilled inside, value, Option.none_or])⟩
  · rw [place, not_or]
    rintro ⟨not_left, not_right⟩
    exact merged_value values
      (by rw [right_unfilled not_right, decided.unfilled not_left, Option.none_or])

end

theorem Made.decided {t : MergeTree} (made : t.Made)
    (supplied : ∃ c ∈ t.contributors, c.map.resolver? type field ≠ none) :
    ∃ before c after own, t.DecidedBy type field before c after own := by
  induction made with
  | @contributor b reached history by_field =>
    obtain ⟨c, member, found⟩ := supplied
    obtain rfl : c = b := by simpa [contributors] using member
    obtain ⟨own, found⟩ := Option.ne_none_iff_exists'.mp found
    refine ⟨[], c, [], own, rfl, found, by simp, fun filled => ?_, fun _ => ?_⟩
    · have out := filled.lt
      simp [contributors] at out
    · rw [result, Bundle.unmerged?_eq, found]
      rfl
  | @merge σ o left right merged next made_left made_right merges left_ih right_ih =>
    obtain ⟨left_reached, left_tabular⟩ := made_left.sound
    obtain ⟨right_reached, right_tabular⟩ := made_right.sound
    have values := (Bundle.merge_values left_reached right_reached left_tabular right_tabular
      merges).2 type field
    by_cases on_right : ∃ c ∈ right.contributors, c.map.resolver? type field ≠ none
    · obtain ⟨before, c, after, own, decided⟩ := right_ih on_right
      exact ⟨_, c, _, own, decided.on_right values⟩
    · have on_left : ∃ c ∈ left.contributors, c.map.resolver? type field ≠ none := by
        obtain ⟨c, member, found⟩ := supplied
        rcases List.mem_append.mp member with member | member
        · exact ⟨c, member, found⟩
        · exact absurd ⟨c, member, found⟩ on_right
      obtain ⟨before, c, after, own, decided⟩ := left_ih on_left
      exact ⟨_, c, _, own, decided.on_left made_right (by simpa using on_right) values⟩

/-- A field for which some contributor has a resolver is bound to that of the last one that has one,
unless a merge of contributors that all come after that one has filled the gap; then it is bound to
what fills the gap. -/
theorem tree_binds_last_or_default {t : MergeTree} (made : t.Made) {e : Executable} {b : Bundle}
    (built : t.result.schema = .ok (e, b)) (stands : e.schema.HasField type field)
    (supplied : ∃ c ∈ t.contributors, c.map.resolver? type field ≠ none) :
    ∃ before c after own r, t.contributors = before ++ c :: after ∧
      c.map.resolver? type field = some own ∧ (∀ d ∈ after, d.map.resolver? type field = none) ∧
      e.resolver? type field = some r ∧
      (¬ t.FilledAfter (before.length + 1) type field → r.unmerged = own.unmerged) ∧
      (t.FilledAfter (before.length + 1) type field → ∃ id, r.unmerged = .fieldReader id) := by
  obtain ⟨before, c, after, own, split, found, silent, filled, unfilled⟩ := made.decided supplied
  have fits := (made.sound.1.sound.schema built).1
  have bound {x : Resolver} (value : t.result.unmerged? [type, field] = some x) :
      ∃ r, e.resolver? type field = some r ∧ r.unmerged = x := by
    obtain ⟨r, leaf, same⟩ := Bundle.stands_of_unmerged? value
    exact ⟨r, fits.typed stands leaf, same⟩
  by_cases later : t.FilledAfter (before.length + 1) type field
  · obtain ⟨id, value⟩ := filled later
    obtain ⟨r, here, same⟩ := bound value
    exact ⟨before, c, after, own, r, split, found, silent, here, fun not_later => absurd later not_later,
      fun _ => ⟨id, same⟩⟩
  · obtain ⟨r, here, same⟩ := bound (unfilled later)
    exact ⟨before, c, after, own, r, split, found, silent, here, fun _ => same,
      fun also => absurd also later⟩

/-- A contributor with a resolver for one field of its root. -/
def supplier (field : Name) (id : Nat) : Bundle :=
  Bundle.ofText "type Query { a: String b: String }" (Bundle.single "Query" field id)

/-- A contributor without resolvers. -/
def bystander : Bundle := Bundle.ofSdl "type Query { a: String b: String }"

theorem made_supplier (field : Name) (id : Nat) : (contributor (supplier field id)).Made := by
  have keyed : (Bundle.single "Query" field id).Keyed := by
    simp [Bundle.single, KeyTree.Keyed, KeyTree.keys]
  refine .contributor (Bundle.reached_ofText _ _ (by decide +kernel) rfl keyed rfl) rfl ?_
  intro path l found
  have found : (Bundle.single "Query" field id).leaf? path = some l := found
  rcases path with _ | ⟨key, _ | ⟨next, rest⟩⟩
  · simp at found
  · simp [Bundle.single, KeyTree.leaf?_branch] at found
  · simp only [Bundle.single, KeyTree.leaf?_branch, KeyTree.leaf?_leaf, KeyTree.leaf?_nil] at found
    split at found
    · obtain ⟨_, rfl, rfl⟩ : field = next ∧ rest = [] ∧
          Leaf.resolver (Bundle.plainResolver id) = l := by simpa using found
      exact ⟨key, next, _, rfl, rfl⟩
    · cases found

theorem made_bystander : (contributor bystander).Made := by
  refine .contributor (Bundle.reached_ofSdl (by decide +kernel) rfl) rfl ?_
  intro path l found
  simp [bystander, Bundle.ofSdl, Bundle.map] at found

/-- The second and the third contributor are merged with gaps filled, then the first one is merged
with what that made. -/
def sampleTree (later merged : Bundle) : MergeTree :=
  .merge merged (.contributor (supplier "a" 0))
    (.merge later (.contributor bystander) (.contributor (supplier "b" 1)))

theorem sampleTree_of_run (p : Bundle → Executable → Bool)
    (passes : ((((Bundle.merge { Bundle.plainOptions with createMissing := true } bystander
        (supplier "b" 1)).run 2).run ()).1.1.toOption.any fun later =>
      (((Bundle.merge Bundle.plainOptions (supplier "a" 0) later).run 9).run
        ()).1.1.toOption.any fun merged =>
      merged.schema.toOption.any fun e => p later e.1) = true) :
    ∃ later merged e b, (sampleTree later merged).Made ∧ merged.schema = .ok (e, b) ∧
      p later e = true := by
  obtain ⟨later, later_run, passes⟩ := ok_of_any passes
  obtain ⟨merged, merged_run, passes⟩ := ok_of_any passes
  obtain ⟨⟨e, b⟩, built, passes⟩ := ok_of_any passes
  have inner_merges : Bundle.MergesTo { Bundle.plainOptions with createMissing := true } bystander
      (supplier "b" 1) 2 later := ⟨(), later_run⟩
  have outer_merges : Bundle.MergesTo Bundle.plainOptions (supplier "a" 0) later 9 merged :=
    ⟨(), merged_run⟩
  have inner := Made.merge made_bystander (made_supplier "b" 1) inner_merges
  exact ⟨later, merged, e, b, Made.merge (made_supplier "a" 0) inner outer_merges, built, passes⟩

theorem sampleTree_filled {later merged : Bundle} {r : Resolver}
    (filled : later.map.resolver? "Query" "a" = some r) :
    (sampleTree later merged).FilledAfter 1 "Query" "a" := by
  have inside : 0 < (contributor (supplier "a" 0)).contributors.length := by simp [contributors]
  rw [sampleTree, filledAfter_left inside, filledAfter_merge]
  refine Or.inr (Or.inl ⟨rfl, ?_, ?_, ?_⟩)
  · rw [filled]
    simp
  · rfl
  · rfl

theorem supplier_resolver (field : Name) (id : Nat) (other : Name) :
    (supplier field id).map.resolver? "Query" other =
      if field = other then some (Bundle.plainResolver id) else none := by
  rw [ResolverMap.resolver?_eq_leaf?]
  by_cases same : field = other <;>
    simp [supplier, Bundle.ofText, Bundle.map, Bundle.single, KeyTree.leaf?_branch,
      KeyTree.leaf?_leaf, same, Leaf.resolver?]

theorem supplied_once {before after : List Bundle} {c : Bundle} {field : Name} {own : Resolver}
    (split : [supplier "a" 0, bystander, supplier "b" 1] = before ++ c :: after)
    (found : c.map.resolver? "Query" field = some own) :
    field = "a" ∧ before.length = 0 ∧ own = Bundle.plainResolver 0 ∨
      field = "b" ∧ before.length = 2 ∧ own = Bundle.plainResolver 1 := by
  rcases before with _ | ⟨first, _ | ⟨second, _ | ⟨third, rest⟩⟩⟩
  · obtain ⟨rfl, _⟩ : supplier "a" 0 = c ∧ _ := by simpa using split
    rw [supplier_resolver, Option.ite_none_right_eq_some] at found
    exact Or.inl ⟨found.1.symm, rfl, (Option.some.inj found.2).symm⟩
  · obtain ⟨_, rfl, _⟩ : supplier "a" 0 = first ∧ bystander = c ∧ _ := by simpa using split
    cases found
  · obtain ⟨_, _, rfl, _⟩ : supplier "a" 0 = first ∧ bystander = second ∧ supplier "b" 1 = c ∧ _ := by
      simpa using split
    rw [supplier_resolver, Option.ite_none_right_eq_some] at found
    exact Or.inr ⟨found.1.symm, rfl, (Option.some.inj found.2).symm⟩
  · simp at split

/-- The default takes the place of the first contributor's resolver and gives way to that of the
last. -/
theorem tree_binds_last_and_default :
    ∃ (t : MergeTree) (e : Executable) (b : Bundle), t.Made ∧ t.result.schema = .ok (e, b) ∧
      t.contributors = [supplier "a" 0, bystander, supplier "b" 1] ∧
      (∃ r id, e.resolver? "Query" "a" = some r ∧ r.unmerged = .fieldReader id) ∧
      ∃ r, e.resolver? "Query" "b" = some r ∧ r.unmerged = Bundle.plainResolver 1 := by
  obtain ⟨later, merged, e, b, made, built, passes⟩ := sampleTree_of_run
    (fun later e => decide (e.schema.HasField "Query" "a") &&
      decide (e.schema.HasField "Query" "b") && (later.map.resolver? "Query" "a").isSome)
    (by decide +kernel)
  simp only [Bool.and_eq_true, decide_eq_true_eq, Option.isSome_iff_exists] at passes
  obtain ⟨⟨a_field, b_field⟩, filler, filled⟩ := passes
  have all : (sampleTree later merged).contributors =
      [supplier "a" 0, bystander, supplier "b" 1] := rfl
  refine ⟨sampleTree later merged, e, b, made, built, all, ?_, ?_⟩
  · obtain ⟨before, c, after, own, r, split, found, _, bound, _, default⟩ :=
      tree_binds_last_or_default made built a_field
        ⟨supplier "a" 0, by simp [all], by simp [supplier_resolver]⟩
    obtain ⟨_, first, _⟩ := (supplied_once (all.symm.trans split) found).resolve_right (by simp)
    rw [first] at default
    obtain ⟨id, same⟩ := default (sampleTree_filled filled)
    exact ⟨r, id, bound, same⟩
  · obtain ⟨before, c, after, own, r, split, found, _, bound, last, _⟩ :=
      tree_binds_last_or_default made built b_field
        ⟨supplier "b" 1, by simp [all], by simp [supplier_resolver]⟩
    obtain ⟨_, third, rfl⟩ := (supplied_once (all.symm.trans split) found).resolve_left (by simp)
    refine ⟨r, bound, last fun later_fill => ?_⟩
    have out := later_fill.lt
    simp [third, all] at out

/-- A resolver that fills a gap on the right of the only contributor with a resolver for the field
is bound in place of that one. -/
theorem default_takes_place :
    ¬ ∀ (t : MergeTree) (e : Executable) (b : Bundle) (type field : Name), t.Made →
      t.result.schema = .ok (e, b) → e.schema.HasObjectField type field →
      (∃ c ∈ t.contributors, c.map.resolver? type field ≠ none) →
      ∃ c ∈ t.contributors, ∃ own r, c.map.resolver? type field = some own ∧
        e.resolver? type field = some r ∧ r.unmerged = own.unmerged := by
  intro claim
  obtain ⟨later, merged, e, b, made, built, passes⟩ := sampleTree_of_run
    (fun _ e => decide (e.schema.HasObjectField "Query" "a") &&
      (e.resolver? "Query" "a").any (·.unmerged.label == some "defaultFieldResolver"))
    (by decide +kernel)
  simp only [Bool.and_eq_true, decide_eq_true_eq, Option.any_eq_true, beq_iff_eq] at passes
  obtain ⟨stands, r, bound, labelled⟩ := passes
  have all : (sampleTree later merged).contributors =
      [supplier "a" 0, bystander, supplier "b" 1] := rfl
  obtain ⟨c, member, own, r', found, also, same⟩ := claim _ e b "Query" "a" made built stands
    ⟨supplier "a" 0, by simp [all], by simp [supplier_resolver]⟩
  obtain rfl := Option.some.inj (bound.symm.trans also)
  obtain ⟨before, after, split⟩ := List.append_of_mem member
  obtain ⟨_, _, rfl⟩ := (supplied_once (all.symm.trans split) found).resolve_right (by simp)
  rw [same] at labelled
  cases labelled

end MergeTree
end SchemaStitch
