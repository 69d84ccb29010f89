import SchemaStitch.Proofs.Merge.Consolidated

/-! Merging a document with itself. Every item finds itself, or the first item with its name. So where
names are distinct nothing changes; of several directives with one name only the first one can be
another one afterwards, and an interface that is named twice is named once. -/
namespace SchemaStitch
open Sdl

namespace Merge

section
variable {α κ : Type} [DecidableEq κ] {ident : α → Option κ} {f : α → α → α}

/-- An item whose identity is in a list is settled with the first item that has it. -/
theorem placed_present {x : α} {k : κ} {l : List α} (known : ident x = some k)
    (stands : k ∈ l.filterMap ident) : ∃ before y after, l = before ++ y :: after ∧
      ident y = some k ∧ k ∉ before.filterMap ident ∧
      placed ident f x l = before ++ f y x :: after := by
  have found := finds_place ident (fun x y => (pure (f x y) : Id α)) x l
  generalize made : place ident (fun x y => (pure (f x y) : Id α)) x l = out at found
  have same : placed ident f x l = out := made
  cases found with
  | last fresh => exact absurd stands (fresh k known)
  | @taken own before after y x_known like first =>
    cases known.symm.trans x_known
    exact ⟨before, y, after, rfl, like, first, same⟩

theorem placed_first {x y : α} {k : κ} {before after : List α} (known : ident x = some k)
    (like : ident y = some k) (apart : ∀ z ∈ before, ident z ≠ some k) :
    placed ident f x (before ++ y :: after) = before ++ f y x :: after := by
  induction before with
  | nil => exact placed_like known like
  | cons z rest ih =>
    rw [List.cons_append, placed_unlike known (apart z List.mem_cons_self),
      ih fun u member => apart u (List.mem_cons_of_mem z member)]
    rfl

/-- Items with distinct identities are each settled with themselves. -/
theorem placedAll_self (keeps : ∀ x k, ident x = some k → ident (f x x) = some k) {l : List α}
    (known : ∀ x ∈ l, (ident x).isSome) (nodup : (l.filterMap ident).Nodup) :
    placedAll ident f l l = l.map fun x => f x x := by
  have later (before after : List α) (known : ∀ x ∈ after, (ident x).isSome)
      (nodup : ((before ++ after).filterMap ident).Nodup) :
      placedAll ident f (before ++ after) after = before ++ after.map fun x => f x x := by
    induction after generalizing before with
    | nil => simp [placedAll]
    | cons x rest ih =>
      obtain ⟨k, x_known⟩ := Option.isSome_iff_exists.mp (known x List.mem_cons_self)
      have rest_known := fun y member => known y (List.mem_cons_of_mem x member)
      have taken : placed ident f x (before ++ x :: rest) = before ++ f x x :: rest :=
        placed_first x_known x_known fun z member => unlike_of_nodup nodup x_known (Or.inl member)
      have settled_nodup : ((before ++ [f x x] ++ rest).filterMap ident).Nodup := by
        simpa [List.filterMap_append, List.filterMap_cons, x_known, keeps x k x_known] using nodup
      calc placedAll ident f (before ++ x :: rest) (x :: rest)
          = placedAll ident f (before ++ [f x x] ++ rest) rest := by
            rw [placedAll, List.foldl_cons, taken, List.append_cons]
            rfl
        _ = before ++ (x :: rest).map fun x => f x x := by
            rw [ih _ rest_known settled_nodup, List.append_assoc]
            rfl
  exact later [] l known nodup

end

section
variable {α κ : Type} [DecidableEq κ] {name : α → κ}

/-- Whether the item at an index has a name that later items have and earlier ones do not. -/
def FirstOfSeveral (name : α → κ) (l : List α) (i : Nat) : Prop :=
  ∃ n, (l.map name)[i]? = some n ∧ n ∉ (l.map name).take i ∧ n ∈ (l.map name).drop (i + 1)

/-- Items written over others of their names, where only the first of several items with one name can
be another one. -/
structure Rewritten (name : α → κ) (before after : List α) : Prop where
  names : after.map name = before.map name
  unchanged : ∀ i, ¬ FirstOfSeveral name before i → after[i]? = before[i]?

omit [DecidableEq κ] in
theorem Rewritten.refl (l : List α) : Rewritten name l l := ⟨rfl, fun _ _ => rfl⟩

omit [DecidableEq κ] in
theorem Rewritten.eq {before after : List α} (rewritten : Rewritten name before after)
    (nodup : (before.map name).Nodup) : after = before := by
  refine List.ext_getElem? fun i => rewritten.unchanged i ?_
  rintro ⟨n, at_index, _, later⟩
  obtain ⟨bound, rfl⟩ := List.getElem?_eq_some_iff.mp at_index
  have rest := nodup.sublist (List.drop_sublist i _)
  rw [List.drop_eq_getElem_cons bound] at rest
  exact (List.nodup_cons.mp rest).1 later

omit [DecidableEq κ] in
/-- An item is the one at the index where its name stands first, unless that is the first of several.
-/
theorem getElem?_of_alone {l : List α} {x : α} {i : Nat} (member : x ∈ l)
    (at_index : (l.map name)[i]? = some (name x)) (earlier : name x ∉ (l.map name).take i)
    (alone : ¬ FirstOfSeveral name l i) : l[i]? = some x := by
  have later : name x ∉ (l.map name).drop (i + 1) := fun later =>
    alone ⟨name x, at_index, earlier, later⟩
  obtain ⟨j, bound, rfl⟩ := List.getElem_of_mem member
  rcases Nat.lt_trichotomy j i with before | rfl | after
  · refine absurd (List.mem_take_iff_getElem.mpr ⟨j, ?_, List.getElem_map name⟩) earlier
    rw [List.length_map]
    omega
  · exact List.getElem?_eq_getElem bound
  · obtain ⟨gap, rfl⟩ := Nat.exists_eq_add_of_lt after
    refine absurd (List.mem_drop_iff_getElem.mpr ⟨gap, ?_, ?_⟩) later
    · rw [List.length_map]
      omega
    · simp only [List.getElem_map]
      congr 2
      omega

theorem Rewritten.placed {before after : List α} (rewritten : Rewritten name before after) {x : α}
    (member : x ∈ before) :
    Rewritten name before (placed (named name) (fun _ own => own) x after) := by
  have names := rewritten.names
  have stands : name x ∈ after.filterMap (named name) := by
    rw [filterMap_named, names]
    exact List.mem_map_of_mem member
  obtain ⟨first, y, rest, rfl, like, fresh, made⟩ :=
    placed_present (f := fun _ own => own) (rfl : named name x = some (name x)) stands
  have same : name y = name x := Option.some.inj like
  rw [made]
  refine ⟨by rw [← names]; simp [same], fun i alone => ?_⟩
  by_cases here : i = first.length
  · subst here
    rw [getElem?_of_alone member (by rw [← names]; simp [same]) ?_ alone]
    · simp
    · rw [← names]
      rw [filterMap_named] at fresh
      simpa using fresh
  · rw [← rewritten.unchanged i alone, List.getElem?_append, List.getElem?_append]
    split
    · rfl
    · rw [List.getElem?_cons, List.getElem?_cons, if_neg (by omega), if_neg (by omega)]

/-- A list written over itself. -/
theorem rewritten_self (l : List α) : Rewritten name l (written name l l) := by
  have later (right : List α) (inside : ∀ x ∈ right, x ∈ l) (left : List α)
      (rewritten : Rewritten name l left) : Rewritten name l (written name left right) := by
    induction right generalizing left with
    | nil => exact rewritten
    | cons x rest ih =>
      exact ih (fun y member => inside y (List.mem_cons_of_mem x member)) _
        (rewritten.placed (inside x List.mem_cons_self))
  exact later l (fun _ => id) l (.refl l)

end

theorem unionNames_self (names : List Name) : unionNames names names = names.eraseDups := by
  have none_left : names.removeAll names = [] := by
    rw [List.removeAll, List.filter_eq_nil_iff]
    intro n member
    simpa using member
  rw [unionNames_eq_eraseDups, List.eraseDups_append, none_left, List.eraseDups_nil, List.append_nil]

theorem eraseDups_of_nodup {names : List Name} (nodup : names.Nodup) : names.eraseDups = names := by
  induction names with
  | nil => rfl
  | cons n rest ih =>
    obtain ⟨fresh, nodup⟩ := List.nodup_cons.mp nodup
    have others : (rest.filter fun m => !m == n) = rest := by
      rw [List.filter_eq_self]
      rintro m member
      simpa using fun same : m = n => fresh (same ▸ member)
    rw [List.eraseDups_cons, others, ih nodup]

end Merge

/-- A body that implements each of its interfaces once. -/
def Sdl.TypeBody.implementingOnce : TypeBody → TypeBody
  | .object is fields => .object is.eraseDups fields
  | .interface is fields => .interface is.eraseDups fields
  | body => body

namespace Merge

/-- A definition and what it becomes in a merge of its document with itself. -/
inductive Again : Definition → Definition → Prop
  | schema {s : SchemaDefinition} {directives : List Directive}
      (applied : Rewritten Directive.name s.directives directives) :
      Again (.schema s) (.schema { s with directives })
  | type {t : TypeDefinition} {directives : List Directive}
      (applied : Rewritten Directive.name t.directives directives) :
      Again (.type t) (.type { t with directives, body := t.body.implementingOnce })
  | directive (d : DirectiveDefinition) : Again (.directive d) (.directive d)
  | operation (o : Operation) : Again (.operation o) (.operation o)
  | fragment (f : Fragment) : Again (.fragment f) (.fragment f)

theorem Again.eq {before after : Definition} (again : Again before after)
    (directives : before.Distinct .directives) (interfaces : before.Distinct .interfaces) :
    after = before := by
  cases again with
  | schema applied => rw [applied.eq directives]
  | @type t _ applied =>
    have body : t.body.implementingOnce = t.body := by
      obtain ⟨_, _, _, body⟩ := t
      cases body with
      | object is fields => exact congrArg (TypeBody.object · fields) (eraseDups_of_nodup interfaces)
      | interface is fields =>
        exact congrArg (TypeBody.interface · fields) (eraseDups_of_nodup interfaces)
      | _ => rfl
    rw [applied.eq directives, body]
  | _ => rfl

theorem written_self {α κ : Type} [DecidableEq κ] {name : α → κ} {l : List α}
    (nodup : (l.map name).Nodup) : written name l l = l := (rewritten_self l).eq nodup

theorem updatedBody_self {body : TypeBody} (members : body.memberNames.Nodup) :
    updatedBody body body = body.implementingOnce := by
  cases body with
  | scalar => rfl
  | object is fields => exact congrArg₂ TypeBody.object (unionNames_self is) (written_self members)
  | interface is fields =>
    exact congrArg₂ TypeBody.interface (unionNames_self is) (written_self members)
  | union names => exact congrArg TypeBody.union (written_self ((List.map_id names).symm ▸ members))
  | enum values => exact congrArg TypeBody.enum (written_self members)
  | input fields => exact congrArg TypeBody.input (written_self members)

theorem again_updated {d : Definition} (whole : d.Whole) (members : d.Distinct .members)
    (operations : d.Distinct .operations) : Again d (updated d d) := by
  cases d with
  | schema s =>
    have same : updated (.schema s) (.schema s) =
        .schema { s with directives := written Directive.name s.directives s.directives } := by
      have listed : written Prod.fst s.operations s.operations = s.operations :=
        written_self operations
      rw [updated, listed, Option.orElse_eq_orElse, Option.orElse_eq_or, Option.or_self]
    rw [same]
    exact .schema (rewritten_self _)
  | type t =>
    have same : updated (.type t) (.type t) = .type { t with
        directives := written Directive.name t.directives t.directives
        body := t.body.implementingOnce } := by
      rw [updated, if_pos rfl, updatedBody_self members, Option.orElse_eq_orElse,
        Option.orElse_eq_or, Option.or_self]
    rw [same]
    exact .type (rewritten_self _)
  | directive d => exact .directive d
  | operation o => exact .operation o
  | fragment f => exact .fragment f
  | schemaExtension | typeExtension => cases whole

variable {d : Document}

theorem merged_self (named : ∀ x ∈ d, x.key ≠ .executable none) :
    merged d.consolidated d.consolidated = d.consolidated.map fun x => updated x x := by
  rw [merged, consolidated_again]
  refine placedAll_self (fun x k known => ?_) (fun x member => ?_) (nodup_consolidated d)
  · rwa [identity, updated_key rfl]
  · simp [identity, named_consolidated named x member]

theorem map_of_merge_same {α : Type} (g : Definition → α)
    (same : d.consolidated.merge (.keepRight : ConflictPolicy Id) d.consolidated =
      pure d.consolidated) :
    (merged d.consolidated d.consolidated).map g = d.consolidated.map g := by
  rw [merge_keepRight] at same
  exact congrArg (List.map g) same

/-- A consolidated document that is merged with itself keeps its definitions in order where the later
of two items stands. Each of them stays as it is, but for interfaces that it names twice and for the
first of several directives of one name; so if there are none of these, the document stays as it is. -/
theorem merge_again (named : ∀ x ∈ d, x.key ≠ .executable none)
    (members : ∀ x ∈ d, x.Distinct .members) (operations : ∀ x ∈ d, x.Distinct .operations)
    (m : Type → Type) [Monad m] [LawfulMonad m] :
    ∃ again, d.consolidated.merge (.keepRight : ConflictPolicy m) d.consolidated = pure again ∧
      List.Forall₂ Again d.consolidated again ∧
      ((∀ x ∈ d.consolidated, x.Distinct .directives ∧ x.Distinct .interfaces) →
        again = d.consolidated) := by
  have kept : ∀ x ∈ d.consolidated, Again x (updated x x) := fun x member =>
    again_updated (whole_consolidated d x member) (distinct_consolidated members x member)
      (distinct_consolidated operations x member)
  refine ⟨_, merge_keepRight _ _, ?_, fun distinct => ?_⟩ <;> rw [merged_self named]
  · exact List.forall₂_map_right_iff.mpr (List.forall₂_same.mpr kept)
  · have same : ∀ x ∈ d.consolidated, updated x x = x := fun x member =>
      (kept x member).eq (distinct x member).1 (distinct x member).2
    rw [List.map_congr_left same, List.map_id']

theorem merge_again_repeating :
    (∃ d again : Document, (∀ x ∈ d, x.key ≠ .executable none) ∧ (∀ x ∈ d, x.Distinct .members) ∧
      (∀ x ∈ d, x.Distinct .operations) ∧ (¬ ∀ x ∈ d.consolidated, x.Distinct .directives) ∧
      d.consolidated.merge (.keepRight : ConflictPolicy Id) d.consolidated = pure again ∧
      List.Forall₂ Again d.consolidated again) ∧
    (∃ d : Document, (∀ x ∈ d, x.key ≠ .executable none) ∧ (∀ x ∈ d, x.Distinct .members) ∧
      (∀ x ∈ d, x.Distinct .operations) ∧
      (∀ x ∈ d.consolidated, x.Distinct .directives ∧ x.Distinct .interfaces) ∧
      d.consolidated.merge (.keepRight : ConflictPolicy Id) d.consolidated = pure d.consolidated) := by
  constructor
  · let d := documentOf "type T implements I & J @d(x: 1) @e @d { a: Int }"
    have named : ∀ x ∈ d, x.key ≠ .executable none := by decide +kernel
    have members : ∀ x ∈ d, x.Distinct .members := by decide +kernel
    have operations : ∀ x ∈ d, x.Distinct .operations := by decide +kernel
    obtain ⟨again, made, same, _⟩ := merge_again named members operations Id
    exact ⟨d, again, named, members, operations, by decide +kernel, made, same⟩
  · let d := documentOf "type T @d { a: Int } extend type T implements J @e { b: Int }"
    have named : ∀ x ∈ d, x.key ≠ .executable none := by decide +kernel
    have members : ∀ x ∈ d, x.Distinct .members := by decide +kernel
    have operations : ∀ x ∈ d, x.Distinct .operations := by decide +kernel
    have distinct : ∀ x ∈ d.consolidated, x.Distinct .directives ∧ x.Distinct .interfaces := by
      decide +kernel
    obtain ⟨again, made, _, same⟩ := merge_again named members operations Id
    exact ⟨d, named, members, operations, distinct, made.trans (congrArg pure (same distinct))⟩

/-- An interface that is named twice is named once afterwards, and of two directives of one name the
first one takes over the arguments of the second one. -/
theorem merging_again_can_change :
    (¬ ∀ d : Document, (∀ x ∈ d, x.key ≠ .executable none) → (∀ x ∈ d, x.Distinct .members) →
      (∀ x ∈ d, x.Distinct .operations) → (∀ x ∈ d, ∀ y ∈ d, x.key = y.key → x.kind = y.kind) →
      d.consolidated.merge (.keepRight : ConflictPolicy Id) d.consolidated = pure d.consolidated) ∧
    (¬ ∀ d : Document, (∀ x ∈ d, x.key ≠ .executable none) → (∀ x ∈ d, x.Distinct .members) →
      (∀ x ∈ d, x.Distinct .operations) → (∀ x ∈ d, ∀ y ∈ d, x.key = y.key → x.kind = y.kind) →
      (∀ x ∈ d, x.Distinct .interfaces) →
      d.consolidated.merge (.keepRight : ConflictPolicy Id) d.consolidated = pure d.consolidated) := by
  constructor
  · intro claim
    let d := documentOf "type T implements I & I { a: Int }"
    have same := claim d (by decide +kernel) (by decide +kernel) (by decide +kernel)
      (by decide +kernel)
    exact absurd (map_of_merge_same Definition.interfaces same) (by decide +kernel)
  · intro claim
    let d := documentOf "type T @d(x: 1) @d { a: Int }"
    have same := claim d (by decide +kernel) (by decide +kernel) (by decide +kernel)
      (by decide +kernel) (by decide +kernel)
    exact absurd (map_of_merge_same (Definition.print false) same) (by decide +kernel)

end Merge
end SchemaStitch
