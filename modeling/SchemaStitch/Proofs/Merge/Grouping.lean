import SchemaStitch.Proofs.Merge.Union

/-! How merges are grouped makes no difference where the later of two items stands. A shared
identity keeps the place that it has first, and what stands there is settled from left to right, so
lists can be brought together in any grouping. A definition is such a list of items and a document
such a list of definitions. -/
namespace SchemaStitch
open Sdl

namespace Merge

section
variable {α κ : Type} [DecidableEq κ] {ident : α → Option κ} {f : α → α → α} {P : α → Prop}

/-- Settling that keeps identities and, of items with a property, groups in any way. -/
structure Groups (ident : α → Option κ) (P : α → Prop) (f : α → α → α) : Prop where
  keeps : ∀ x y k, ident x = some k → ident y = some k → ident (f x y) = some k
  inside : ∀ x y k, ident x = some k → ident y = some k → P x → P y → P (f x y)
  assoc : ∀ x y z k, ident x = some k → ident y = some k → ident z = some k → P x → P y → P z →
    f (f x y) z = f x (f y z)

theorem placed_like {item present : α} {rest : List α} {k : κ} (known : ident item = some k)
    (like : ident present = some k) :
    placed ident f item (present :: rest) = f present item :: rest := by
  rw [placed_cons, if_pos ⟨by simp [known], like.trans known.symm⟩]

theorem placed_unlike {item present : α} {rest : List α} {k : κ} (known : ident item = some k)
    (unlike : ident present ≠ some k) :
    placed ident f item (present :: rest) = present :: placed ident f item rest := by
  rw [placed_cons, if_neg fun like => unlike (like.2.trans known)]

theorem placed_unknown {item present : α} {rest : List α} (unknown : ident item = none) :
    placed ident f item (present :: rest) = present :: placed ident f item rest := by
  rw [placed_cons, if_neg (by simp [unknown])]

theorem placedAll_append (a b c : List α) :
    placedAll ident f a (b ++ c) = placedAll ident f (placedAll ident f a b) c :=
  List.foldl_append

theorem forall_placedAll (groups : Groups ident P f) {left right : List α} (all : ∀ x ∈ left, P x)
    (own : ∀ x ∈ right, P x) : ∀ x ∈ placedAll ident f left right, P x := by
  have kept : ∀ x ∈ ((placeAll ident (fun x y => (pure (f x y) : StateM Unit α)) left right).run
      ()).1, P x := forall_placeAll all own (fun x y k _ => groups.inside x y k) ()
  rwa [placeAll_pure] at kept

/-- Two items with one identity are placed one after the other or settled first. -/
theorem placed_placed (groups : Groups ident P f) {x y : α} {k : κ} (x_known : ident x = some k)
    (y_known : ident y = some k) (x_inside : P x) (y_inside : P y) {l : List α}
    (inside : ∀ z ∈ l, P z) :
    placed ident f (f x y) l = placed ident f y (placed ident f x l) := by
  have known : ident (f x y) = some k := groups.keeps x y k x_known y_known
  induction l with
  | nil => rw [placed_nil, placed_nil, placed_like y_known x_known]
  | cons present rest ih =>
    by_cases like : ident present = some k
    · rw [placed_like known like, placed_like x_known like,
        placed_like y_known (groups.keeps present x k like x_known),
        groups.assoc present x y k like x_known y_known (inside present List.mem_cons_self)
          x_inside y_inside]
    · rw [placed_unlike known like, placed_unlike x_known like, placed_unlike y_known like,
        ih fun z member => inside z (List.mem_cons_of_mem _ member)]

/-- An item that finds its identity changes nothing for items of other identities. -/
theorem placed_swap (groups : Groups ident P f) {x y : α} {k : κ} (known : ident x = some k)
    (apart : ident y ≠ some k) {l : List α} (found : some k ∈ l.map ident) :
    placed ident f y (placed ident f x l) = placed ident f x (placed ident f y l) := by
  induction l with
  | nil => simp at found
  | cons present rest ih =>
    rw [List.map_cons, List.mem_cons] at found
    -- the first item that either is settled with decides; the other one goes past it
    by_cases like : ident present = some k
    · have settled := groups.keeps present x k like known
      cases y_known : ident y with
      | none => simp only [placed_like known like, placed_unknown y_known]
      | some j =>
        have unlike {z : α} (z_known : ident z = some k) : ident z ≠ some j := by
          rw [z_known, ← y_known]
          exact apart.symm
        rw [placed_like known like, placed_unlike y_known (unlike settled),
          placed_unlike y_known (unlike like), placed_like known like]
    · have deeper := found.resolve_left (Ne.symm like)
      cases y_known : ident y with
      | none =>
        rw [placed_unlike known like, placed_unknown y_known, placed_unknown y_known,
          placed_unlike known like, ih deeper]
      | some j =>
        by_cases own : ident present = some j
        · have settled : ident (f present y) ≠ some k := by
            rwa [groups.keeps present y j own y_known, ← y_known]
          rw [placed_unlike known like, placed_like y_known own, placed_like y_known own,
            placed_unlike known settled]
        · rw [placed_unlike known like, placed_unlike y_known own, placed_unlike y_known own,
            placed_unlike known like, ih deeper]

theorem mem_idents_placed (groups : Groups ident P f) {x : α} {l : List α} {k : Option κ} :
    k ∈ (placed ident f x l).map ident ↔ k ∈ l.map ident ∨ k = ident x := by
  have steady : Keeps ident (fun x y => (pure (f x y) : StateM Unit α)) ident :=
    fun x y k _ left right =>
      ⟨left.trans right.symm, (groups.keeps x y k left right).trans left.symm⟩
  have stands : k ∈ ((place ident (fun x y => (pure (f x y) : StateM Unit α)) x l).run
      ()).1.map ident ↔ k ∈ l.map ident ∨ k = ident x := mem_map_place steady () k
  rwa [place_pure] at stands

theorem placedAll_swap (groups : Groups ident P f) {x : α} {k : κ} (known : ident x = some k)
    {l right : List α} (found : some k ∈ l.map ident) (apart : ∀ y ∈ right, ident y ≠ some k) :
    placedAll ident f (placed ident f x l) right =
      placed ident f x (placedAll ident f l right) := by
  induction right generalizing l with
  | nil => rfl
  | cons y rest ih =>
    have deeper : some k ∈ (placed ident f y l).map ident :=
      (mem_idents_placed groups).mpr (Or.inl found)
    change placedAll ident f (placed ident f y (placed ident f x l)) rest =
      placed ident f x (placedAll ident f (placed ident f y l) rest)
    rw [placed_swap groups known (apart y List.mem_cons_self) found,
      ih deeper fun z member => apart z (List.mem_cons_of_mem _ member)]

/-- Placing one more item first in the right list or last in the whole is the same. -/
theorem placedAll_placed (groups : Groups ident P f) {a b : List α} {x : α}
    (nodup : (b.filterMap ident).Nodup) (a_inside : ∀ y ∈ a, P y) (b_inside : ∀ y ∈ b, P y)
    (x_inside : P x) :
    placedAll ident f a (placed ident f x b) = placed ident f x (placedAll ident f a b) := by
  rcases placed_cases ident f x b with last | ⟨k, before, y, after, rfl, known, like, taken⟩
  · rw [last, placedAll_append]
    rfl
  · have y_inside : P y := b_inside y (by simp)
    -- what follows `y` has other identities, so `x` can wait until all of it is placed
    have apart : ∀ z ∈ after, ident z ≠ some k := fun z member =>
      unlike_of_nodup nodup like (Or.inr member)
    have first_inside : ∀ z ∈ placedAll ident f a before, P z :=
      forall_placedAll groups a_inside fun z member => b_inside z (List.mem_append_left _ member)
    have found : some k ∈ (placed ident f y (placedAll ident f a before)).map ident :=
      (mem_idents_placed groups).mpr (Or.inr like.symm)
    calc placedAll ident f a (placed ident f x (before ++ y :: after))
        = placedAll ident f (placed ident f (f y x) (placedAll ident f a before)) after := by
          rw [taken, placedAll_append]
          rfl
      _ = placedAll ident f
            (placed ident f x (placed ident f y (placedAll ident f a before))) after := by
          rw [placed_placed groups like known y_inside x_inside first_inside]
      _ = placed ident f x
            (placedAll ident f (placed ident f y (placedAll ident f a before)) after) :=
          placedAll_swap groups known found apart
      _ = placed ident f x (placedAll ident f a (before ++ y :: after)) := by
          rw [placedAll_append]
          rfl

theorem placedAll_assoc (groups : Groups ident P f) {a b c : List α}
    (nodup : (b.filterMap ident).Nodup) (a_inside : ∀ x ∈ a, P x) (b_inside : ∀ x ∈ b, P x)
    (c_inside : ∀ x ∈ c, P x) :
    placedAll ident f a (placedAll ident f b c) = placedAll ident f (placedAll ident f a b) c := by
  induction c generalizing b with
  | nil => rfl
  | cons x rest ih =>
    have x_inside := c_inside x List.mem_cons_self
    have placed_nodup : ((placed ident f x b).filterMap ident).Nodup :=
      nodup_placedAll nodup groups.keeps [x]
    have placed_inside : ∀ z ∈ placed ident f x b, P z := by
      have own : ∀ z ∈ [x], P z := by simpa using x_inside
      exact forall_placedAll groups b_inside own
    have later := ih placed_nodup placed_inside fun z member =>
      c_inside z (List.mem_cons_of_mem _ member)
    rw [placedAll_placed groups nodup a_inside b_inside x_inside] at later
    exact later

end

section
variable {α κ : Type} [DecidableEq κ] {name : α → κ}

/-- The items of the right list written over those of the left one. -/
def written (name : α → κ) (left right : List α) : List α :=
  placedAll (named name) (fun _ own => own) left right

theorem written_assoc {a b c : List α} (nodup : (b.map name).Nodup) :
    written name (written name a b) c = written name a (written name b c) := by
  have groups : Groups (named name) (fun _ => True) fun _ own => own :=
    ⟨fun _ _ _ _ own => own, fun _ _ _ _ _ _ _ => trivial, fun _ _ _ _ _ _ _ _ _ _ => rfl⟩
  rw [← filterMap_named] at nodup
  exact (placedAll_assoc groups nodup (by simp) (by simp) (by simp)).symm

theorem unionNames_assoc (a b c : List Name) :
    unionNames (unionNames a b) c = unionNames a (unionNames b c) := by
  let union := placedAll (named id) fun (present _ : Name) => present
  have groups : Groups (named id) (fun _ => True) fun (present _ : Name) => present :=
    ⟨fun _ _ _ own _ => own, fun _ _ _ _ _ _ _ => trivial, fun _ _ _ _ _ _ _ _ _ _ => rfl⟩
  have unionNames_eq (x y : List Name) : unionNames x y = union [] (x ++ y) :=
    collect_eq_placedAll [] (x ++ y)
  have append (x y z : List Name) : union x (y ++ z) = union (union x y) z :=
    placedAll_append x y z
  have again (x y : List Name) : union x (union [] y) = union x y :=
    placedAll_assoc groups List.nodup_nil (by simp) (by simp) (by simp)
  calc unionNames (unionNames a b) c
      = union (union [] (union [] (a ++ b))) c := by rw [unionNames_eq, unionNames_eq, append]
    _ = union [] (a ++ (b ++ c)) := by rw [again, ← append, List.append_assoc]
    _ = union (union [] a) (union [] (b ++ c)) := by rw [again, ← append]
    _ = unionNames a (unionNames b c) := by rw [unionNames_eq a, unionNames_eq b, append [] a]

end

/-- A body with what another one of its kind says written over it. -/
def updatedBody : TypeBody → TypeBody → TypeBody
  | .object is fs, .object js gs => .object (unionNames is js) (written Field.name fs gs)
  | .interface is fs, .interface js gs => .interface (unionNames is js) (written Field.name fs gs)
  | .union ms, .union ns => .union (written id ms ns)
  | .enum vs, .enum ws => .enum (written EnumValue.name vs ws)
  | .input fs, .input gs => .input (written InputField.name fs gs)
  | _, body => body

/-- A definition with what another one says written over it. -/
def updated : Definition → Definition → Definition
  | .schema a, .schema b =>
    .schema ⟨a.description <|> b.description, written Directive.name a.directives b.directives,
      written Prod.fst a.operations b.operations⟩
  | .type a, .type b =>
    if a.body.kind = b.body.kind then
      .type ⟨a.description <|> b.description, a.name,
        written Directive.name a.directives b.directives, updatedBody a.body b.body⟩
    else .type b
  | .directive a, .directive _ => .directive a
  | .operation a, .operation _ => .operation a
  | .fragment a, .fragment _ => .fragment a
  | _, right => right

theorem updatedBody_kind (a b : TypeBody) : (updatedBody a b).kind = b.kind := by
  cases a <;> cases b <;> rfl

theorem updatedBody_assoc {a b c : TypeBody} (left : a.kind = b.kind) (right : b.kind = c.kind)
    (nodup : b.memberNames.Nodup) :
    updatedBody (updatedBody a b) c = updatedBody a (updatedBody b c) := by
  cases b with
  | scalar =>
    cases a <;> cases left
    cases c <;> cases right
    rfl
  | object js gs =>
    cases a <;> cases left
    cases c <;> cases right
    exact congrArg₂ TypeBody.object (unionNames_assoc _ js _) (written_assoc nodup)
  | interface js gs =>
    cases a <;> cases left
    cases c <;> cases right
    exact congrArg₂ TypeBody.interface (unionNames_assoc _ js _) (written_assoc nodup)
  | union ns =>
    cases a <;> cases left
    cases c <;> cases right
    exact congrArg TypeBody.union (written_assoc ((List.map_id ns).symm ▸ nodup))
  | enum ws =>
    cases a <;> cases left
    cases c <;> cases right
    exact congrArg TypeBody.enum (written_assoc nodup)
  | input gs =>
    cases a <;> cases left
    cases c <;> cases right
    exact congrArg TypeBody.input (written_assoc nodup)

theorem updated_kind (l r : Definition) : (updated l r).kind = r.kind := by
  cases l <;> cases r <;> try rfl
  case type.type a b =>
    rw [updated]
    split
    · exact congrArg Definition.Kind.type (updatedBody_kind a.body b.body)
    · rfl

theorem updated_assoc {a b c : Definition} (left : a.kind = b.kind) (right : b.kind = c.kind)
    (a_whole : a.Whole) (b_whole : b.Whole) (c_whole : c.Whole) (clear : b.Clear) :
    updated (updated a b) c = updated a (updated b c) := by
  cases b with
  | schema y =>
    cases a <;> cases left <;> cases a_whole
    cases c <;> cases right <;> cases c_whole
    have directives : (y.directives.map Directive.name).Nodup := clear.directives
    have operations : (y.operations.map Prod.fst).Nodup := clear.operations
    simp only [updated, Option.orElse_eq_orElse, Option.orElse_eq_or, Option.or_assoc,
      written_assoc directives, written_assoc operations]
  | type y =>
    cases a with
    | type x =>
      cases c with
      | type z =>
        have left_kind : x.body.kind = y.body.kind := Definition.Kind.type.inj left
        have right_kind : y.body.kind = z.body.kind := Definition.Kind.type.inj right
        have directives : (y.directives.map Directive.name).Nodup := clear.directives
        have bodies := updatedBody_assoc left_kind right_kind clear.members
        simp only [updated, left_kind, right_kind, updatedBody_kind, if_true,
          Option.orElse_eq_orElse, Option.orElse_eq_or, Option.or_assoc, written_assoc directives,
          bodies]
      | typeExtension => cases c_whole
      | _ => cases right
    | typeExtension => cases a_whole
    | _ => cases left
  | directive y =>
    cases a <;> cases left
    cases c <;> cases right
    rfl
  | operation y =>
    cases a <;> cases left
    cases c <;> cases right
    rfl
  | fragment y =>
    cases a <;> cases left
    cases c <;> cases right
    rfl
  | schemaExtension | typeExtension => cases b_whole

section
variable {m : Type → Type} [Monad m] [LawfulMonad m]

theorem combine_pure {α : Type} (name : α → Name) (left right : List α) :
    combine name (fun _ own => (pure own : m α)) left right = pure (written name left right) := by
  rw [combine_eq_placeAll, placeAll_pure]
  rfl

theorem outputField_keepRight (owner : Name) :
    (ConflictPolicy.keepRight : ConflictPolicy m).outputField owner = fun _ own => pure own := by
  funext l r
  simp [ConflictPolicy.outputField, ConflictPolicy.keepRight]

theorem inputField_keepRight (owner : Name) :
    (ConflictPolicy.keepRight : ConflictPolicy m).inputField owner = fun _ own => pure own := by
  funext l r
  simp [ConflictPolicy.inputField, ConflictPolicy.keepRight]

theorem combineDirectives_keepRight (owner : Name) (left right : List Directive) :
    combineDirectives (.keepRight : ConflictPolicy m) owner left right =
      pure (written Directive.name left right) :=
  combine_pure Directive.name left right

theorem combineBodies?_keepRight (owner : Name) (a b : TypeBody) :
    combineBodies? (.keepRight : ConflictPolicy m) owner a b =
      if a.kind = b.kind then some (pure (updatedBody a b)) else none := by
  cases a <;> cases b <;> try rfl
  case object.object is fs js gs =>
    simp [combineBodies?, TypeBody.kind, outputField_keepRight, combine_pure, updatedBody]
  case interface.interface is fs js gs =>
    simp [combineBodies?, TypeBody.kind, outputField_keepRight, combine_pure, updatedBody]
  case union.union ms ns =>
    have members := combine_pure (m := m) id ms ns
    simp [combineBodies?, TypeBody.kind, ConflictPolicy.keepRight, members, updatedBody]
  case enum.enum vs ws =>
    have values := combine_pure (m := m) EnumValue.name vs ws
    simp [combineBodies?, TypeBody.kind, ConflictPolicy.keepRight, values, updatedBody]
  case input.input fs gs =>
    simp [combineBodies?, TypeBody.kind, inputField_keepRight, combine_pure, updatedBody]

theorem definitions_keepRight (l r : Definition) :
    definitions (.keepRight : ConflictPolicy m) l r = pure (updated l r) := by
  cases l <;> cases r <;> try rfl
  case schema.schema a b =>
    rw [definitions, schemas, combineDirectives_keepRight, pure_bind, map_pure,
      combineOperations_eq_placedAll]
    rfl
  case type.type a b =>
    rw [definitions, types, combineBodies?_keepRight, updated]
    by_cases same : a.body.kind = b.body.kind
    · simp only [if_pos same, combineDirectives_keepRight, pure_bind, map_pure]
    · simp only [if_neg same, map_pure]

theorem foldAll_keepRight (into later : Document) :
    foldAll (.keepRight : ConflictPolicy m) into later =
      pure (placedAll identity updated into later) := by
  have settle : definitions (.keepRight : ConflictPolicy m) = fun l r => pure (updated l r) :=
    funext fun l => funext fun r => definitions_keepRight l r
  rw [foldAll_eq_placeAll, settle, placeAll_pure]

theorem consolidated_eq (d : Document) :
    d.consolidated = placedAll identity updated [] (d.map Definition.asDefinition) := by
  rw [Document.consolidated, Document.consolidate, foldAll_keepRight]
  rfl

theorem consolidate_keepRight (d : Document) :
    d.consolidate (.keepRight : ConflictPolicy m) = pure d.consolidated := by
  rw [Document.consolidate, foldAll_keepRight, consolidated_eq]

/-- The merge of two documents in which the later of two items stands. -/
def merged (left right : Document) : Document :=
  placedAll identity updated left.consolidated right.consolidated

theorem merge_keepRight (left right : Document) :
    left.merge (.keepRight : ConflictPolicy m) right = pure (merged left right) := by
  simp only [Document.merge, consolidate_keepRight, pure_bind, foldAll_keepRight]
  rfl

end

/-- A definition as it stands in a merge of some documents: of the kind of a definition that one of
them has under its key. -/
structure Fits (all : Document) (d : Definition) : Prop where
  whole : d.Whole
  clear : d.Clear
  like : ∃ x ∈ all, x.key = d.key ∧ x.kind = d.kind

theorem kind_asDefinition (d : Definition) : d.asDefinition.kind = d.kind := by
  cases d <;> rfl

theorem updated_key {l r : Definition} (same : l.key = r.key) : (updated l r).key = l.key := by
  have key := definitions_key (p := (.keepRight : ConflictPolicy (StateM Unit))) same ()
  rwa [definitions_keepRight] at key

theorem updated_whole {l r : Definition} (left : l.Whole) (right : r.Whole) :
    (updated l r).Whole := by
  have whole := definitions_whole (p := (.keepRight : ConflictPolicy (StateM Unit))) left right ()
  rwa [definitions_keepRight] at whole

theorem updated_clear {l r : Definition} (left : l.Clear) (right : r.Clear) :
    (updated l r).Clear := by
  have distinct {part : Part} (own : l.Distinct part) (other : r.Distinct part) :
      (updated l r).Distinct part := by
    have distinct := definitions_distinct keepRight_keepsNames own other ()
    rwa [definitions_keepRight] at distinct
  exact ⟨distinct left.directives right.directives, distinct left.members right.members,
    distinct left.operations right.operations⟩

section
variable {all : Document} (same : ∀ x ∈ all, ∀ y ∈ all, x.key = y.key → x.kind = y.kind)
include same

theorem groups_updated : Groups identity (Fits all) updated := by
  have keys {x y : Definition} {k : Definition.Key} (left : identity x = some k)
      (right : identity y = some k) : x.key = y.key :=
    (identity_eq_some.mp left).1.trans (identity_eq_some.mp right).1.symm
  have kinds {x y : Definition} {k : Definition.Key} (left : identity x = some k)
      (right : identity y = some k) (x_fits : Fits all x) (y_fits : Fits all y) :
      x.kind = y.kind := by
    obtain ⟨a, a_member, a_key, a_kind⟩ := x_fits.like
    obtain ⟨b, b_member, b_key, b_kind⟩ := y_fits.like
    have shared : a.key = b.key := (a_key.trans (keys left right)).trans b_key.symm
    exact (a_kind.symm.trans (same a a_member b b_member shared)).trans b_kind
  refine ⟨fun x y k left right => ?_, fun x y k left right x_fits y_fits => ?_,
    fun x y z k first second third x_fits y_fits z_fits => ?_⟩
  · rwa [identity, updated_key (keys left right)]
  · obtain ⟨d, member, key, kind⟩ := y_fits.like
    have own_key := updated_key (keys left right)
    exact ⟨updated_whole x_fits.whole y_fits.whole, updated_clear x_fits.clear y_fits.clear,
      d, member, key.trans ((keys left right).symm.trans own_key.symm),
      kind.trans (updated_kind x y).symm⟩
  · exact updated_assoc (kinds first second x_fits y_fits) (kinds second third y_fits z_fits)
      x_fits.whole y_fits.whole z_fits.whole y_fits.clear

theorem fits_consolidated (clear : ∀ x ∈ all, x.Clear) {d : Document}
    (inside : ∀ x ∈ d, x ∈ all) : ∀ x ∈ d.consolidated, Fits all x := by
  rw [consolidated_eq]
  refine forall_placedAll (groups_updated same) (by simp) fun x member => ?_
  obtain ⟨y, stands, rfl⟩ := List.mem_map.mp member
  have own := clear y (inside y stands)
  exact ⟨y.whole_asDefinition, ⟨distinct_asDefinition own.directives,
    distinct_asDefinition own.members, distinct_asDefinition own.operations⟩,
    y, inside y stands, (key_asDefinition y).symm, (kind_asDefinition y).symm⟩

end

theorem nodup_consolidated (d : Document) : (d.consolidated.filterMap identity).Nodup := by
  have nodup := nodup_consolidate (p := (.keepRight : ConflictPolicy (StateM Unit))) d ()
  rwa [consolidate_keepRight] at nodup

theorem consolidated_merged (left right : Document) :
    (merged left right).consolidated = merged left right := by
  have whole := merge_whole (p := (.keepRight : ConflictPolicy (StateM Unit))) left right ()
  have nodup := nodup_merge (p := (.keepRight : ConflictPolicy (StateM Unit))) left right ()
  rw [merge_keepRight] at whole nodup
  have unchanged := consolidate_eq_pure (.keepRight : ConflictPolicy Id) whole nodup
  rw [consolidate_keepRight] at unchanged
  exact unchanged

theorem merged_assoc {a b c : Document} (clear : ∀ x ∈ a ++ b ++ c, x.Clear)
    (same : ∀ x ∈ a ++ b ++ c, ∀ y ∈ a ++ b ++ c, x.key = y.key → x.kind = y.kind) :
    merged (merged a b) c = merged a (merged b c) := by
  have a_fits : ∀ x ∈ a.consolidated, Fits (a ++ b ++ c) x :=
    fits_consolidated same clear fun x member => by simp [member]
  have b_fits : ∀ x ∈ b.consolidated, Fits (a ++ b ++ c) x :=
    fits_consolidated same clear fun x member => by simp [member]
  have c_fits : ∀ x ∈ c.consolidated, Fits (a ++ b ++ c) x :=
    fits_consolidated same clear fun x member => by simp [member]
  calc merged (merged a b) c
      = placedAll identity updated (merged a b) c.consolidated := by
        rw [merged, consolidated_merged]
    _ = placedAll identity updated a.consolidated (merged b c) :=
        (placedAll_assoc (groups_updated same) (nodup_consolidated b) a_fits b_fits c_fits).symm
    _ = placedAll identity updated a.consolidated (merged b c).consolidated := by
        rw [consolidated_merged]

section
variable {σ : Type} (p : ConflictPolicy (StateM σ))

theorem consolidate_nil {m : Type → Type} [Monad m] (q : ConflictPolicy m) :
    Document.consolidate q [] = pure [] := rfl

theorem merge_nil (d : Document) : d.merge p [] = d.consolidate p := by
  rw [Document.merge, consolidate_nil]
  exact bind_pure (d.consolidate p)

theorem nil_merge (d : Document) : Document.merge p [] d = d.consolidate p := by
  apply StateT.ext
  intro s
  have fresh : foldAll p [] ((d.consolidate p).run s).1 = pure ((d.consolidate p).run s).1 := by
    rw [foldAll_eq_placeAll]
    exact placeAll_fresh (nodup_consolidate d s)
  change (foldAll p [] ((d.consolidate p).run s).1).run ((d.consolidate p).run s).2 = _
  rw [fresh]
  rfl

/-- The empty document adds nothing to a merge, whatever the policy answers. Where the later of two
items stands, three documents whose definitions with one key are of one kind can be merged in either
grouping. -/
theorem merge_regroups :
    (∀ d : Document, d.merge p [] = d.consolidate p ∧ Document.merge p [] d = d.consolidate p) ∧
      ∀ a b c : Document, (∀ x ∈ a ++ b ++ c, x.Clear) →
        (∀ x ∈ a ++ b ++ c, ∀ y ∈ a ++ b ++ c, x.key = y.key → x.kind = y.kind) →
        ∀ (m : Type → Type) [Monad m] [LawfulMonad m],
          (do (← a.merge (.keepRight : ConflictPolicy m) b).merge .keepRight c) =
            (do a.merge .keepRight (← b.merge .keepRight c)) := by
  refine ⟨fun d => ⟨merge_nil p d, nil_merge p d⟩, fun a b c clear same m _ _ => ?_⟩
  simp only [merge_keepRight, pure_bind, merged_assoc clear same]

end

theorem merge_regroups_three :
    ∃ a b c : Document, (∀ x ∈ a ++ b ++ c, x.Clear) ∧
      (∀ x ∈ a ++ b ++ c, ∀ y ∈ a ++ b ++ c, x.key = y.key → x.kind = y.kind) ∧
      (a ++ b ++ c).length = 6 ∧
      (do (← a.merge (.keepRight : ConflictPolicy Id) b).merge .keepRight c) =
        (do a.merge .keepRight (← b.merge .keepRight c)) := by
  let a := documentOf "type A implements I { x: Int y: Int } directive @d on OBJECT"
  let b := documentOf "extend type A implements J @d { y: ID z: Int } enum E { U V }"
  let c := documentOf "type A implements J & I @e @d { z: ID w: Int x: ID } directive @d on ENUM"
  have clear : ∀ x ∈ a ++ b ++ c, x.Clear := by decide +kernel
  have same : ∀ x ∈ a ++ b ++ c, ∀ y ∈ a ++ b ++ c, x.key = y.key → x.kind = y.kind := by
    decide +kernel
  exact ⟨a, b, c, clear, same, by decide +kernel,
    (merge_regroups (.keepRight : ConflictPolicy (StateM Unit))).2 a b c clear same Id⟩

end Merge
end SchemaStitch
