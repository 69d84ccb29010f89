import SchemaStitch.Proofs.Pare.Subtraction

/-! Paring by several documents. What is left of a definition once two documents are taken does not
depend on which one goes first, and taking a document again takes nothing. A merge names what its two
sides name, so where they agree in kinds taking the merge is taking both. -/
namespace SchemaStitch
open Sdl Merge

namespace Merge

section
variable {α κ : Type} [DecidableEq κ] {ident : α → Option κ} {f : α → α → α}

theorem counterpart_cons (x y : α) (rest : List α) :
    counterpart ident (y :: rest) x =
      if (ident x).isSome ∧ ident y = ident x then some y else counterpart ident rest x := by
  cases known : ident x with
  | none => simp [counterpart, known]
  | some k => by_cases like : ident y = some k <;> simp [counterpart, known, like]

omit [DecidableEq κ] in
theorem sublist_idents {g : α → Option α} (same : ∀ x y, g x = some y → ident y = ident x)
    {l : List α} : ((l.filterMap g).filterMap ident).Sublist (l.filterMap ident) := by
  induction l with
  | nil => exact .slnil
  | cons x rest ih =>
    have first := List.sublist_append_right [x] rest |>.filterMap ident
    cases found : g x with
    | none =>
      rw [List.filterMap_cons_none found]
      exact ih.trans first
    | some y =>
      rw [List.filterMap_cons_some found]
      cases known : ident x with
      | none => simpa [List.filterMap_cons, same x y found, known] using ih
      | some k => simpa [List.filterMap_cons, same x y found, known] using ih

theorem counterpart_placed
    (keeps : ∀ x y k, ident x = some k → ident y = some k → ident (f x y) = some k) (item x : α)
    (l : List α) :
    counterpart ident (placed ident f item l) x =
      if (ident x).isSome ∧ ident item = ident x then (counterpart ident l x).merge f (some item)
      else counterpart ident l x := by
  induction l with
  | nil =>
    have nothing : counterpart ident [] x = none := counterpart_eq_none.mpr (by simp)
    rw [placed_nil, counterpart_cons, nothing, Option.merge_none_left]
  | cons present rest ih =>
    rw [placed_cons]
    split
    · rename_i settled
      obtain ⟨k, known⟩ := Option.isSome_iff_exists.mp settled.1
      have like := settled.2.trans known
      rw [counterpart_cons, counterpart_cons, keeps present item k like known, known, like]
      split <;> rfl
    · rename_i apart
      rw [counterpart_cons, ih, counterpart_cons]
      by_cases own : (ident x).isSome ∧ ident present = ident x
      · have other : ¬ ((ident x).isSome ∧ ident item = ident x) := fun like =>
          apart ⟨like.2 ▸ like.1, own.2.trans like.2.symm⟩
        rw [if_pos own, if_pos own, if_neg other]
      · rw [if_neg own, if_neg own]

/-- What has an identity once lists are brought together is settled from what has it in either. -/
theorem counterpart_placedAll
    (keeps : ∀ x y k, ident x = some k → ident y = some k → ident (f x y) = some k) (x : α)
    {left right : List α} (nodup : (right.filterMap ident).Nodup) :
    counterpart ident (placedAll ident f left right) x =
      (counterpart ident left x).merge f (counterpart ident right x) := by
  induction right generalizing left with
  | nil =>
    have nothing : counterpart ident [] x = none := counterpart_eq_none.mpr (by simp)
    rw [nothing, Option.merge_none_right]
    rfl
  | cons item rest ih =>
    have rest_nodup := nodup.sublist ((List.sublist_cons_self item rest).filterMap ident)
    change counterpart ident (placedAll ident f (placed ident f item left) rest) x = _
    rw [ih rest_nodup, counterpart_placed keeps, counterpart_cons]
    split
    · rename_i own
      obtain ⟨k, known⟩ := Option.isSome_iff_exists.mp own.1
      have like := own.2.trans known
      have alone : counterpart ident rest x = none := by
        rw [List.filterMap_cons_some like, List.nodup_cons] at nodup
        refine counterpart_eq_none.mpr fun j other stands => nodup.1 ?_
        rwa [Option.some.inj (known.symm.trans other)]
      rw [alone, Option.merge_none_right]
    · rfl

end
end Merge

namespace Sdl

theorem TypeBody.filterMembers_filterMembers (keep stay : Name → Bool) (body : TypeBody) :
    (body.filterMembers keep).filterMembers stay = body.filterMembers fun n => stay n && keep n := by
  cases body with
  | scalar => rfl
  | _ => simp only [filterMembers, List.filter_filter]

namespace Definition

/-- A definition that names just what two others name. -/
structure Joint (c a b : Definition) : Prop where
  directives : ∀ n, n ∈ c.directiveNames ↔ n ∈ a.directiveNames ∨ n ∈ b.directiveNames
  members : ∀ n, n ∈ c.memberNames ↔ n ∈ a.memberNames ∨ n ∈ b.memberNames
  operations : ∀ k, k ∈ c.operations.map (·.1) ↔
    k ∈ a.operations.map (·.1) ∨ k ∈ b.operations.map (·.1)

theorem Joint.same (a : Definition) : Joint a a a :=
  ⟨fun _ => or_self_iff.symm, fun _ => or_self_iff.symm, fun _ => or_self_iff.symm⟩

theorem Joint.without {a b c : Definition} (joint : Joint c a b) (l : Definition) :
    (l.without a).without b = l.without c := by
  have test {α : Type} [DecidableEq α] {x y z : List α} (union : ∀ n, n ∈ z ↔ n ∈ x ∨ n ∈ y)
      (n : α) : (!y.contains n && !x.contains n) = !z.contains n := by
    rw [Bool.eq_iff_iff]
    simp [union, and_comm]
  have directives := test joint.directives
  have members := test joint.members
  have operations := test joint.operations
  cases l with
  | schema s => simp only [Definition.without, List.filter_filter, directives, operations]
  | type t =>
    simp only [Definition.without, List.filter_filter, TypeBody.filterMembers_filterMembers,
      directives, members]
  | _ => rfl

theorem without_comm (l a b : Definition) : (l.without a).without b = (l.without b).without a := by
  cases l with
  | schema s => simp only [without, List.filter_filter, Bool.and_comm]
  | type t =>
    simp only [without, List.filter_filter, TypeBody.filterMembers_filterMembers, Bool.and_comm]
  | _ => rfl

theorem kind_without (l r : Definition) : (l.without r).kind = l.kind := by
  cases l with
  | type t =>
    obtain ⟨_, _, _, body⟩ := t
    cases body <;> rfl
  | _ => rfl

theorem whole_without {l : Definition} (whole : l.Whole) (r : Definition) :
    (l.without r).Whole := by
  cases l <;> trivial

end Definition
end Sdl

namespace Merge

theorem memberNames_updatedBody {a b : TypeBody} (same : a.kind = b.kind) (n : Name) :
    n ∈ (updatedBody a b).memberNames ↔ n ∈ a.memberNames ∨ n ∈ b.memberNames := by
  cases b with
  | scalar =>
    cases a <;> cases same
    simp [updatedBody, TypeBody.memberNames]
  | union ns =>
    cases a with
    | union ms =>
      have names : n ∈ (written id ms ns).map id ↔ n ∈ ms.map id ∨ n ∈ ns.map id := mem_names_written
      simp only [List.map_id] at names
      exact names
    | _ => cases same
  | _ =>
    cases a <;> cases same
    exact mem_names_written

theorem joint_updated {a b : Definition} (a_whole : a.Whole) (b_whole : b.Whole)
    (same : a.kind = b.kind) (own : a.kind.HasMembers) : (updated a b).Joint a b := by
  cases a with
  | schema s =>
    cases b with
    | schema u =>
      exact ⟨fun n => mem_names_written, by simp [updated, Definition.memberNames],
        fun k => mem_names_written⟩
    | schemaExtension => cases b_whole
    | _ => cases same
  | type t =>
    cases b with
    | type u =>
      have kinds : t.body.kind = u.body.kind := Definition.Kind.type.inj same
      rw [updated, if_pos kinds]
      exact ⟨fun n => mem_names_written, memberNames_updatedBody kinds,
        by simp [Definition.operations]⟩
    | typeExtension => cases b_whole
    | _ => cases same
  | schemaExtension | typeExtension => cases a_whole
  | _ => cases own

end Merge

namespace Pare

/-- What is left of a definition when the definition is taken that another document has for it. -/
def leave (r : Option Definition) (l : Definition) : Option Definition :=
  match r with
  | none => some l
  | some r => (definition l r).left l

theorem remainder_eq_leave (right : Document) (l : Definition) :
    remainder right l = leave (counterpart identity right l) l := rfl

section
variable {l d b c : Definition} {x y : Option Definition}

theorem leave_apart (apart : ∀ r, x = some r → l.kind ≠ r.kind) : leave x l = some l := by
  cases x with
  | none => rfl
  | some r =>
    rw [leave, definition_unlike (apart r rfl)]
    rfl

theorem leave_bare (l_whole : l.Whole) (b_whole : b.Whole) (kinds : l.kind = b.kind)
    (bare : ¬ l.kind.HasMembers) : leave (some b) l = none := by
  rw [leave, definition_bare l_whole b_whole kinds bare]
  rfl

theorem leave_part (l_whole : l.Whole) (b_whole : b.Whole) (kinds : l.kind = b.kind)
    (own : l.kind.HasMembers) :
    leave (some b) l = if (l.without b).members.isEmpty then none else some (l.without b) := by
  rw [leave, definition_alike l_whole b_whole kinds own]
  split <;> rfl

theorem identity_leave (left : leave x l = some d) : identity d = identity l := by
  cases x with
  | none => rw [Option.some.inj left]
  | some r => exact identity_left left

/-- What is left of a definition is of its kind. -/
theorem leave_like (l_whole : l.Whole) (whole : ∀ r, x = some r → r.Whole)
    (left : leave x l = some d) : d.kind = l.kind ∧ d.Whole := by
  by_cases apart : ∀ r, x = some r → l.kind ≠ r.kind
  · rw [leave_apart apart] at left
    cases left
    exact ⟨rfl, l_whole⟩
  · push Not at apart
    obtain ⟨r, rfl, kinds⟩ := apart
    by_cases own : l.kind.HasMembers
    · rw [leave_part l_whole (whole r rfl) kinds own] at left
      split at left
      · cases left
      · cases left
        exact ⟨l.kind_without r, Definition.whole_without l_whole r⟩
    · rw [leave_bare l_whole (whole r rfl) kinds own] at left
      cases left

/-- Two definitions of the kind of a third one leave of it what neither names. -/
theorem leave_leave (l_whole : l.Whole) (b_whole : b.Whole) (c_whole : c.Whole)
    (b_kind : l.kind = b.kind) (c_kind : l.kind = c.kind) (own : l.kind.HasMembers) :
    (leave (some b) l).bind (leave (some c)) =
      if ((l.without b).without c).members.isEmpty then none
      else some ((l.without b).without c) := by
  have kinds : (l.without b).kind = c.kind := (l.kind_without b).trans c_kind
  have rest_own : (l.without b).kind.HasMembers := by rwa [l.kind_without b]
  have rest_whole := Definition.whole_without l_whole b
  rw [leave_part l_whole b_whole b_kind own]
  split
  · rename_i gone
    have none_left : ((l.without b).without c).members.isEmpty = true := by
      rw [Definition.members_without rest_whole kinds rest_own, List.isEmpty_iff.mp gone]
      rfl
    rw [if_pos none_left]
    rfl
  · exact leave_part rest_whole c_whole kinds rest_own

theorem leave_bind_apart (l_whole : l.Whole) (x_whole : ∀ r, x = some r → r.Whole)
    (apart : ∀ r, y = some r → l.kind ≠ r.kind) :
    (leave x l).bind (leave y) = leave x l := by
  have stays : ∀ d, leave x l = some d → leave y d = some d := fun d left =>
    leave_apart fun r here => (leave_like l_whole x_whole left).1 ▸ apart r here
  rw [Option.bind_congr stays, Option.bind_fun_some]

theorem leave_again (l_whole : l.Whole) (whole : ∀ r, x = some r → r.Whole) :
    (leave x l).bind (leave x) = leave x l := by
  by_cases apart : ∀ r, x = some r → l.kind ≠ r.kind
  · exact leave_bind_apart l_whole whole apart
  · push Not at apart
    obtain ⟨r, rfl, kinds⟩ := apart
    have r_whole := whole r rfl
    by_cases own : l.kind.HasMembers
    · rw [leave_leave l_whole r_whole r_whole kinds kinds own,
        (Definition.Joint.same r).without l, leave_part l_whole r_whole kinds own]
    · rw [leave_bare l_whole r_whole kinds own]
      rfl

theorem leave_comm (l_whole : l.Whole) (x_whole : ∀ r, x = some r → r.Whole)
    (y_whole : ∀ r, y = some r → r.Whole) :
    (leave x l).bind (leave y) = (leave y l).bind (leave x) := by
  by_cases x_apart : ∀ r, x = some r → l.kind ≠ r.kind
  · rw [leave_bind_apart l_whole y_whole x_apart, leave_apart x_apart]
    rfl
  by_cases y_apart : ∀ r, y = some r → l.kind ≠ r.kind
  · rw [leave_bind_apart l_whole x_whole y_apart, leave_apart y_apart]
    rfl
  push Not at x_apart y_apart
  obtain ⟨b, rfl, b_kind⟩ := x_apart
  obtain ⟨c, rfl, c_kind⟩ := y_apart
  have b_whole := x_whole b rfl
  have c_whole := y_whole c rfl
  by_cases own : l.kind.HasMembers
  · rw [leave_leave l_whole b_whole c_whole b_kind c_kind own,
      leave_leave l_whole c_whole b_whole c_kind b_kind own, l.without_comm]
  · rw [leave_bare l_whole b_whole b_kind own, leave_bare l_whole c_whole c_kind own]
    rfl

/-- Taking a definition made of two of one kind is taking both. -/
theorem leave_merge (l_whole : l.Whole) (x_whole : ∀ r, x = some r → r.Whole)
    (y_whole : ∀ r, y = some r → r.Whole)
    (kinds : ∀ r s, x = some r → y = some s → r.kind = s.kind) :
    leave (x.merge updated y) l = (leave x l).bind (leave y) := by
  cases x with
  | none => rw [Option.merge_none_left]; rfl
  | some b =>
    cases y with
    | none =>
      rw [Option.merge_none_right, leave_bind_apart l_whole x_whole (by simp)]
    | some c =>
      have b_whole := x_whole b rfl
      have c_whole := y_whole c rfl
      have same := kinds b c rfl rfl
      have joined_whole := updated_whole b_whole c_whole
      by_cases like : l.kind = c.kind
      · have joined_kind : l.kind = (updated b c).kind := like.trans (updated_kind b c).symm
        rw [Option.merge_some_some]
        by_cases own : l.kind.HasMembers
        · have joint := joint_updated b_whole c_whole same (by rwa [same, ← like])
          rw [leave_leave l_whole b_whole c_whole (like.trans same.symm) like own,
            joint.without, leave_part l_whole joined_whole joined_kind own]
        · rw [leave_bare l_whole joined_whole joined_kind own,
            leave_bare l_whole b_whole (like.trans same.symm) own]
          rfl
      · have apart (r : Definition) (kind : r.kind = c.kind) : leave (some r) l = some l :=
          leave_apart fun s here => by rwa [← Option.some.inj here, kind]
        rw [Option.merge_some_some, apart _ (updated_kind b c), apart b same]
        exact (apart c rfl).symm

end

theorem remainder_bind (left right : Document) (l : Definition) :
    (remainder left l).bind (remainder right) =
      (leave (counterpart identity left l) l).bind (leave (counterpart identity right l)) := by
  refine Option.bind_congr fun d rest => ?_
  rw [remainder_eq_leave, counterpart_congr (identity_leave rest)]

end Pare

namespace Sdl.Document

variable {a b c : Document}

theorem whole_counterpart (right : Document) (l r : Definition)
    (found : counterpart identity right.consolidated l = some r) : r.Whole :=
  whole_consolidated right r (of_counterpart found).1

/-- What paring leaves is consolidated. -/
theorem consolidated_pare (map : ResolverMap) :
    (a.pare b map).1.consolidated = (a.pare b map).1 := by
  have whole : ∀ x ∈ (a.pare b map).1, x.Whole := by
    intro x member
    obtain ⟨l, l_member, left⟩ := mem_pare.mp member
    exact (Pare.leave_like (whole_consolidated a l l_member) (whole_counterpart b l) left).2
  have once : ((a.pare b map).1.filterMap identity).Nodup := by
    rw [pare_eq]
    exact (nodup_consolidated a).sublist (sublist_idents fun _ _ left => Pare.identity_leave left)
  have unchanged := consolidate_eq_pure (.keepRight : ConflictPolicy Id) whole once
  rwa [consolidate_keepRight] at unchanged

/-- What two documents leave, one taken after the other, is what they leave of each definition. -/
theorem pare_pare (map later : ResolverMap) :
    ((a.pare b map).1.pare c later).1 = a.consolidated.filterMap fun l =>
      (Pare.leave (counterpart identity b.consolidated l) l).bind
        (Pare.leave (counterpart identity c.consolidated l)) := by
  rw [pare_eq, consolidated_pare, pare_eq, List.filterMap_filterMap]
  exact List.filterMap_congr fun l _ => Pare.remainder_bind _ _ l

theorem pare_again_document (map later : ResolverMap) :
    ((a.pare b map).1.pare b later).1 = (a.pare b map).1 := by
  rw [pare_pare, pare_eq]
  exact List.filterMap_congr fun l member =>
    Pare.leave_again (whole_consolidated a l member) (whole_counterpart b l)

/-- No resolver is taken when a document is taken again: no field goes. -/
theorem takes_again (map : ResolverMap) : (a.pare b map).1.takes b = [] := by
  refine List.eq_nil_iff_forall_not_mem.mpr fun t taken => ?_
  obtain ⟨_, stands, goes⟩ := (taken_iff map).mp ⟨t, taken, rfl⟩
  rw [pare_again_document] at goes
  rw [consolidated_pare] at stands
  exact goes stands

theorem pare_again_map (map later : ResolverMap) : ((a.pare b map).1.pare b later).2 = later := by
  have made : ((a.pare b map).1.pare b later).2 =
      ((a.pare b map).1.takes b).foldl Pare.Take.apply later := Pare.subtractAll_map _ _ _
  rw [made, takes_again]
  rfl

theorem pare_comm (map later other last : ResolverMap) :
    ((a.pare b map).1.pare c later).1 = ((a.pare c other).1.pare b last).1 := by
  rw [pare_pare, pare_pare]
  exact List.filterMap_congr fun l member => Pare.leave_comm (whole_consolidated a l member)
    (whole_counterpart b l) (whole_counterpart c l)

theorem pare_merged
    (kinds : ∀ x ∈ b.consolidated, ∀ y ∈ c.consolidated, x.key = y.key → x.kind = y.kind)
    (map other later : ResolverMap) :
    (a.pare (merged b c) map).1 = ((a.pare b other).1.pare c later).1 := by
  have keeps (x y : Definition) (k : Definition.Key) (left : identity x = some k)
      (right : identity y = some k) : identity (updated x y) = some k := by
    rwa [identity, updated_key (keys_of_identity left right)]
  rw [pare_eq, consolidated_merged, pare_pare]
  refine List.filterMap_congr fun l member => ?_
  rw [Pare.remainder_eq_leave, merged, counterpart_placedAll keeps l (nodup_consolidated c)]
  refine Pare.leave_merge (whole_consolidated a l member) (whole_counterpart b l)
    (whole_counterpart c l) fun x y left right => ?_
  obtain ⟨x_member, j, known, x_like⟩ := of_counterpart left
  obtain ⟨y_member, k, same, y_like⟩ := of_counterpart right
  obtain rfl : j = k := Option.some.inj (known.symm.trans same)
  exact kinds x x_member y y_member (keys_of_identity x_like y_like)

/-- Paring again takes nothing, from the document and from the resolver map, and two documents leave
the same whichever is taken first. If definitions of the two with one key are of one kind, taking
their merge leaves that too. -/
theorem pare_in_any_order (a b c : Document) (map : ResolverMap) :
    (a.pare b map).1.pare b (a.pare b map).2 = a.pare b map ∧
      ((a.pare b map).1.pare c (a.pare b map).2).1 =
        ((a.pare c map).1.pare b (a.pare c map).2).1 ∧
      ((∀ x ∈ b.consolidated, ∀ y ∈ c.consolidated, x.key = y.key → x.kind = y.kind) →
        ∀ (m : Type → Type) [Monad m] [LawfulMonad m],
          ∃ both, b.merge (.keepRight : ConflictPolicy m) c = pure both ∧
            (a.pare both map).1 = ((a.pare b map).1.pare c (a.pare b map).2).1) :=
  ⟨Prod.ext (pare_again_document map _) (pare_again_map map _), pare_comm map _ map _,
    fun kinds _ _ _ => ⟨merged b c, merge_keepRight b c, pare_merged kinds map map _⟩⟩

theorem pare_in_any_order_members_and_roots :
    ∃ (a b c : Document) (map : ResolverMap),
      (∀ x ∈ b.consolidated, ∀ y ∈ c.consolidated, x.key = y.key → x.kind = y.kind) ∧
      (a.pare b map).2.keys = ["T"] ∧
      (a.pare b map).1.pare b (a.pare b map).2 = a.pare b map ∧
      ((a.pare b map).1.pare c (a.pare b map).2).1.map Definition.members = [["query"], ["z"], []] ∧
      ∃ both, b.merge (.keepRight : ConflictPolicy Id) c = pure both ∧
        (a.pare both map).1 = ((a.pare c map).1.pare b (a.pare c map).2).1 := by
  let a := documentOf
    ("schema { query: Q mutation: M } type T @d { x: Int y: Int z: Int } enum E { V W } " ++
      "scalar S { a }")
  let b := documentOf "extend type T @d { x: ID } enum E { W } extend schema { mutation: N } { a }"
  let c := documentOf "type T implements I { y: Int x: Int } extend enum E { V } scalar S"
  let leaf : Leaf := .resolver (.function default Resolver.readParent)
  let map : ResolverMap := .branch "T" (.leaf "x" leaf (.leaf "z" leaf .nil)) .nil
  have facts :
      (∀ x ∈ b.consolidated, ∀ y ∈ c.consolidated, x.key = y.key → x.kind = y.kind) ∧
      (a.pare b map).2.keys = ["T"] ∧
      ((a.pare b map).1.pare c (a.pare b map).2).1.map Definition.members =
        [["query"], ["z"], []] := by
    decide +kernel
  obtain ⟨kinds, taken, left⟩ := facts
  obtain ⟨again, order, together⟩ := pare_in_any_order a b c map
  obtain ⟨both, made, same⟩ := together kinds Id
  exact ⟨a, b, c, map, kinds, taken, again, left, both, made,
    same.trans order⟩

end Sdl.Document
end SchemaStitch
