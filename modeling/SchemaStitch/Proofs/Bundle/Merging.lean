import SchemaStitch.Proofs.Bundle.Reached

/-! Which resolvers the executable schema of a merge binds. A resolver that a side binds is bound in
the merge wherever the form in which it is written still reaches the field there. -/
namespace SchemaStitch
open Sdl

namespace Bundle

/-- Without gaps being filled, a leaf of the folded history has in its place the same resolver, up
to what the merge put around it. -/
theorem Stitched.resolver {m : Type → Type} {o : MergeOptions m} {merged : Bundle}
    {history : List Snapshot} {first : Nat} {out : ResolverMap}
    (stitched : Stitched o merged history first out) (off : o.createMissing = false)
    {path : List String} {r : Resolver}
    (found : (Snapshot.foldAll history).leaf? path = some (.resolver r)) :
    ∃ b, out.leaf? path = some (.resolver b) ∧ b.unmerged = r.unmerged := by
  obtain ⟨filled, injected, _, unfilled, around, sees⟩ := stitched.steps
  rw [← unfilled off] at found
  have inner : ∃ i, injected.leaf? path = some (.resolver i) ∧ i.unmerged = r.unmerged := by
    rcases around with ⟨_, rfl⟩ | renewed
    · exact ⟨r, found, rfl⟩
    · obtain ⟨i, stands, _, _, rfl⟩ := renewed.resolver found
      exact ⟨_, stands, rfl⟩
  obtain ⟨i, stands, same⟩ := inner
  rcases sees with ⟨_, rfl⟩ | ⟨s, _, _, renewed⟩
  · exact ⟨i, stands, same⟩
  · obtain ⟨b, stands, _, _, rfl⟩ := renewed.resolver stands
    exact ⟨_, stands, same⟩

/-- Without gaps being filled, nothing comes to stand where the folded history has nothing. -/
theorem Stitched.none_iff {m : Type → Type} {o : MergeOptions m} {merged : Bundle}
    {history : List Snapshot} {first : Nat} {out : ResolverMap}
    (stitched : Stitched o merged history first out) (off : o.createMissing = false)
    (path : List String) :
    out.leaf? path = none ↔ (Snapshot.foldAll history).leaf? path = none := by
  obtain ⟨filled, injected, _, unfilled, around, sees⟩ := stitched.steps
  rw [← unfilled off]
  have inner : injected.leaf? path = none ↔ filled.leaf? path = none := by
    rcases around with ⟨_, rfl⟩ | renewed
    · rfl
    · exact renewed.none_iff path
  rcases sees with ⟨_, rfl⟩ | ⟨s, _, _, renewed⟩
  · exact inner
  · exact (renewed.none_iff path).trans inner

variable {σ : Type} {o : MergeOptions (StateM σ)} {left right merged : Bundle} {next : Nat}
  {l r : Snapshot}

theorem Joined.foldAll (joined : Joined o left right next merged l r) :
    Snapshot.foldAll merged.history =
      ((Snapshot.foldAll (left.history ++ right.history)).overlay l.resolvers).overlay
        r.resolvers := by
  rw [joined.history, show [l, r] = [l] ++ [r] from rfl, ← List.append_assoc,
    Snapshot.foldAll_append, Snapshot.foldAll_append]

/-- What the right side has stands in the merge. -/
theorem Joined.right_stands (joined : Joined o left right next merged l r)
    (off : o.createMissing = false) {path : List String} {own : Resolver}
    (found : right.map.leaf? path = some (.resolver own)) :
    ∃ b, merged.map.leaf? path = some (.resolver b) ∧ b.unmerged = own.unmerged := by
  obtain ⟨captured, stands, rfl⟩ := joined.right_stripped.resolver found
  have folded := KeyTree.leaf?_overlay_right
    (t := (Snapshot.foldAll (left.history ++ right.history)).overlay l.resolvers)
    joined.right_sound.keyed stands
  rw [← joined.foldAll] at folded
  simpa using joined.stitched.resolver off folded

/-- What the left side has stands in the merge where the right side has nothing. -/
theorem Joined.left_stands (joined : Joined o left right next merged l r)
    (off : o.createMissing = false) {path : List String} {own : Resolver}
    (found : left.map.leaf? path = some (.resolver own)) (free : right.map.Free path) :
    ∃ b, merged.map.leaf? path = some (.resolver b) ∧ b.unmerged = own.unmerged := by
  obtain ⟨captured, stands, rfl⟩ := joined.left_stripped.resolver found
  have folded := KeyTree.leaf?_overlay_right
    (t := Snapshot.foldAll (left.history ++ right.history)) joined.left_sound.keyed stands
  have free : r.resolvers.Free path := fun other near =>
    (joined.right_stripped.none_iff other).mpr (free other near)
  have folded := KeyTree.leaf?_overlay_left joined.right_sound.keyed joined.right_pruned folded free
  rw [← joined.foldAll] at folded
  simpa using joined.stitched.resolver off folded

/-- Whether all that a merge has taken in together has no entry for a field in the branch of its
type. -/
def Untyped (b : Bundle) (type field : Name) : Prop :=
  (Snapshot.foldAll b.history).leaf? [type, field] = none

/-- A merge of two bundles, of which all three have executable schemas. -/
structure Built (o : MergeOptions (StateM σ)) (left right merged : Bundle) (eL eR e : Executable) :
    Prop where
  left_reached : left.Reached
  right_reached : right.Reached
  merges : ∃ next, MergesTo o left right next merged
  left_built : ∃ b, left.schema = .ok (eL, b)
  right_built : ∃ b, right.schema = .ok (eR, b)
  built : ∃ b, merged.schema = .ok (e, b)

/-- A field of a merge is bound to what the right side binds it to, if the right side has it in the
branch of its type, or if its type is a root of the merge and nothing that was ever brought in
stands for it in such a branch. A field that the right side leaves unbound is bound to what the left
side binds it to in the same two cases, if the right side has nothing where the left side has it. -/
theorem merge_binds {eL eR e : Executable} (built : Built o left right merged eL eR e)
    (off : o.createMissing = false) {type field : Name} (stands : e.schema.HasField type field) :
    (∀ own, eR.resolver? type field = some own →
        right.map.resolver? type field = some own ∨
          (e.schema.isRoot type = true ∧ merged.Untyped type field) →
        ∃ b, e.resolver? type field = some b ∧ b.unmerged = own.unmerged) ∧
      (eR.resolver? type field = none → ∀ own, eL.resolver? type field = some own →
        (left.map.resolver? type field = some own ∧ right.map.Free [type, field]) ∨
          (left.map.resolver? type field = none ∧ right.map.Free [field] ∧
            e.schema.isRoot type = true ∧ merged.Untyped type field) →
        ∃ b, e.resolver? type field = some b ∧ b.unmerged = own.unmerged) := by
  obtain ⟨left_reached, right_reached, ⟨_, merges⟩, ⟨_, left_built⟩, ⟨_, right_built⟩, _, built⟩ :=
    built
  obtain ⟨l, r, joined⟩ := of_merge left_reached.sound right_reached.sound merges
  have left_fits := (left_reached.sound.schema left_built).1
  have right_fits := (right_reached.sound.schema right_built).1
  have fits := ((left_reached.sound.merge right_reached.sound merges).schema built).1
  have bare (untyped : merged.Untyped type field) : merged.map.leaf? [type, field] = none :=
    (joined.stitched.none_iff off [type, field]).mpr untyped
  constructor
  · intro own bound how
    rcases how with typed | ⟨root, untyped⟩
    · obtain ⟨b, found, same⟩ := joined.right_stands off (ResolverMap.leaf?_of_resolver? typed)
      exact ⟨b, fits.typed stands found, same⟩
    · rcases Executable.of_choose? (right_fits.binds.from_map _ _ _ bound) with typed | ⟨_, _, flat⟩
      · obtain ⟨b, found, same⟩ :=
          joined.right_stands off (ResolverMap.leaf?_of_resolver? typed)
        exact ⟨b, fits.typed stands found, same⟩
      · obtain ⟨b, found, same⟩ := joined.right_stands off flat
        exact ⟨b, fits.flat stands (bare untyped) root found, same⟩
  · intro _ own bound how
    rcases how with ⟨typed, free⟩ | ⟨unlisted, free, root, untyped⟩
    · obtain ⟨b, found, same⟩ := joined.left_stands off (ResolverMap.leaf?_of_resolver? typed) free
      exact ⟨b, fits.typed stands found, same⟩
    · rcases Executable.of_choose? (left_fits.binds.from_map _ _ _ bound) with typed | ⟨_, _, flat⟩
      · exact absurd (typed.symm.trans unlisted) (by simp)
      · obtain ⟨b, found, same⟩ := joined.left_stands off flat free
        exact ⟨b, fits.flat stands (bare untyped) root found, same⟩

/-- A merge all of whose schemas build, found by running it. -/
theorem built_of_run {left right : Bundle} (left_reached : left.Reached)
    (right_reached : right.Reached) (p : Bundle → Executable → Executable → Executable → Bool)
    (passes : ((((merge plainOptions left right).run 2).run ()).1.1.toOption.any fun merged =>
      left.schema.toOption.any fun eL => right.schema.toOption.any fun eR =>
        merged.schema.toOption.any fun e => p merged eL.1 eR.1 e.1) = true) :
    ∃ merged eL eR e, Built plainOptions left right merged eL eR e ∧ p merged eL eR e = true := by
  obtain ⟨merged, merges, passes⟩ := ok_of_any passes
  obtain ⟨⟨eL, left'⟩, left_built, passes⟩ := ok_of_any passes
  obtain ⟨⟨eR, right'⟩, right_built, passes⟩ := ok_of_any passes
  obtain ⟨⟨e, merged'⟩, built, passes⟩ := ok_of_any passes
  exact ⟨merged, eL, eR, e, ⟨left_reached, right_reached, ⟨2, (), merges⟩, ⟨left', left_built⟩,
    ⟨right', right_built⟩, merged', built⟩, passes⟩

/-- A flat entry of the right side and an entry of the left side in the branch of a type reach the
fields of one merge. -/
theorem merge_binds_flat_and_typed :
    ∃ (left right merged : Bundle) (eL eR e : Executable),
      Built plainOptions left right merged eL eR e ∧ plainOptions.createMissing = false ∧
      (e.schema.HasField "Query" "a" ∧ ∃ own b, eR.resolver? "Query" "a" = some own ∧
        e.resolver? "Query" "a" = some b ∧ b.unmerged = own.unmerged) ∧
      (e.schema.HasField "P" "n" ∧ eR.resolver? "P" "n" = none ∧ ∃ own b,
        eL.resolver? "P" "n" = some own ∧ e.resolver? "P" "n" = some b ∧
        b.unmerged = own.unmerged) := by
  let leftMap : ResolverMap := .branch "P" (.leaf "n" (.resolver (plainResolver 0)) .nil) .nil
  let rightMap : ResolverMap := .leaf "a" (.resolver (plainResolver 1)) .nil
  obtain ⟨merged, eL, eR, e, built, passes⟩ := built_of_run
    (reached_ofText "type Query { a: String p: P } type P { n: String }" leftMap (by decide +kernel)
      rfl (by simp [leftMap, KeyTree.Keyed, KeyTree.keys]) rfl)
    (reached_ofText "type Query { a: String }" rightMap (by decide +kernel) rfl
      (by simp [rightMap, KeyTree.Keyed, KeyTree.keys]) rfl)
    (fun merged eL eR e => decide (e.schema.HasField "Query" "a") &&
      decide (e.schema.HasField "P" "n") && (eR.resolver? "Query" "a").isSome &&
      e.schema.isRoot "Query" &&
      ((Snapshot.foldAll merged.history).leaf? ["Query", "a"]).isNone &&
      (eR.resolver? "P" "n").isNone && (eL.resolver? "P" "n").isSome && !eL.schema.isRoot "P")
    (by decide +kernel)
  simp only [Bool.and_eq_true, decide_eq_true_eq, Option.isNone_iff_eq_none,
    Option.isSome_iff_exists, Bool.not_eq_true'] at passes
  obtain ⟨⟨⟨⟨⟨⟨⟨root_field, field⟩, r, right_bound⟩, root⟩, untyped⟩, unbound⟩, l, left_bound⟩,
    inner⟩ := passes
  obtain ⟨b, found, same⟩ :=
    (merge_binds built rfl root_field).1 r right_bound (Or.inr ⟨root, untyped⟩)
  have typed : (ofText "type Query { a: String p: P } type P { n: String }" leftMap).map.resolver?
      "P" "n" = some l := by
    obtain ⟨_, left_built⟩ := built.left_built
    have fits := (built.left_reached.sound.schema left_built).1
    rcases Executable.of_choose? (fits.binds.from_map _ _ _ left_bound) with typed | ⟨root, _⟩
    · exact typed
    · rw [inner] at root
      contradiction
  have free : KeyTree.Free ["P", "n"] rightMap := by
    rintro (_ | ⟨key, path⟩) near
    · rfl
    · have outside : "a" ≠ key := by
        rintro rfl
        simp at near
      simp [rightMap, KeyTree.leaf?_leaf, outside]
  obtain ⟨c, found_left, same_left⟩ :=
    (merge_binds built rfl field).2 unbound l left_bound (Or.inl ⟨typed, free⟩)
  exact ⟨_, _, merged, eL, eR, e, built, rfl, ⟨root_field, r, b, right_bound, found, same⟩, field,
    unbound, l, c, left_bound, found_left, same_left⟩

/-- A flat entry of the right side gives way to an entry of the left side in the branch of the root
type, and a flat entry whose name is that of a type takes the place of that type's branch. -/
theorem bindings_can_be_lost :
    (¬ ∀ (left right merged : Bundle) (eL eR e : Executable) (type field : Name) (own : Resolver),
      Built plainOptions left right merged eL eR e → e.schema.HasField type field →
      eR.resolver? type field = some own →
      ∃ b, e.resolver? type field = some b ∧ b.unmerged = own.unmerged) ∧
    (¬ ∀ (left right merged : Bundle) (eL eR e : Executable) (type field : Name) (own : Resolver),
      Built plainOptions left right merged eL eR e → e.schema.HasField type field →
      eR.resolver? type field = none → eL.resolver? type field = some own →
      ∃ b, e.resolver? type field = some b ∧ b.unmerged = own.unmerged) := by
  constructor
  · intro claim
    obtain ⟨merged, eL, eR, e, built, passes⟩ := built_of_run
      (reached_ofText "type Query { a: String }"
        (.branch "Query" (.leaf "a" (.resolver (plainResolver 0)) .nil) .nil)
        (by decide +kernel) rfl (by simp [KeyTree.Keyed, KeyTree.keys]) rfl)
      (reached_ofText "type Query { a: String }" (.leaf "a" (.resolver (plainResolver 1)) .nil)
        (by decide +kernel) rfl (by simp [KeyTree.Keyed, KeyTree.keys]) rfl)
      (fun _ _ eR e => decide (e.schema.HasField "Query" "a") &&
        (eR.resolver? "Query" "a").any (·.unmerged.tag.id == 1) &&
        (e.resolver? "Query" "a").any (·.unmerged.tag.id == 0))
      (by decide +kernel)
    simp only [Bool.and_eq_true, decide_eq_true_eq, Option.any_eq_true, beq_iff_eq] at passes
    obtain ⟨⟨stands, own, bound, second⟩, kept, found, first⟩ := passes
    obtain ⟨b, rebound, same⟩ := claim _ _ _ _ _ _ _ _ own built stands bound
    cases found.symm.trans rebound
    rw [same, second] at first
    contradiction
  · intro claim
    obtain ⟨merged, eL, eR, e, built, passes⟩ := built_of_run
      (reached_ofText "type Query { p: P } type P { n: String }"
        (.branch "P" (.leaf "n" (.resolver (plainResolver 0)) .nil) .nil)
        (by decide +kernel) rfl (by simp [KeyTree.Keyed, KeyTree.keys]) rfl)
      (reached_ofText "type Query { P: String }" (.leaf "P" (.resolver (plainResolver 1)) .nil)
        (by decide +kernel) rfl (by simp [KeyTree.Keyed, KeyTree.keys]) rfl)
      (fun _ eL eR e => decide (e.schema.HasField "P" "n") &&
        (eR.resolver? "P" "n").isNone && (eL.resolver? "P" "n").isSome &&
        (e.resolver? "P" "n").isNone)
      (by decide +kernel)
    simp only [Bool.and_eq_true, decide_eq_true_eq, Option.isNone_iff_eq_none,
      Option.isSome_iff_exists] at passes
    obtain ⟨⟨⟨stands, unbound⟩, own, bound⟩, lost⟩ := passes
    obtain ⟨b, rebound, _⟩ := claim _ _ _ _ _ _ _ _ own built stands unbound bound
    cases lost.symm.trans rebound

end Bundle
end SchemaStitch
