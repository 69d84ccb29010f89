import SchemaStitch.Proofs.Merge.Facts

/-! The root operations of a merge. What the schema definitions and extensions of the two sides list
is listed by the merge, and a type keeps its kind, so a root is lost only where the two sides differ
in how they name their roots or in what kind a conventional root is. -/
namespace SchemaStitch
open Sdl

namespace Merge

variable {σ : Type} {p : ConflictPolicy (StateM σ)}

theorem put_cases (operations : List (OperationKind × Name)) (o : OperationKind × Name) :
    combineOperations.put operations o = operations ++ [o] ∨
      ∃ before y after, operations = before ++ y :: after ∧ y.1 = o.1 ∧
        combineOperations.put operations o = before ++ o :: after := by
  rw [put_eq_placed]
  rcases placed_cases (named Prod.fst) (fun _ own => own) o operations with
    last | ⟨k, before, y, after, made, known, like, taken⟩
  · exact Or.inl last
  · exact Or.inr ⟨before, y, after, made, Option.some.inj (like.trans known.symm), taken⟩

theorem put_stands {operations : List (OperationKind × Name)} {o x : OperationKind × Name}
    (stood : x ∈ operations) (agrees : o.1 = x.1 → o = x) :
    x ∈ combineOperations.put operations o := by
  rcases put_cases operations o with last | ⟨before, y, after, rfl, like, taken⟩
  · rw [last]
    exact List.mem_append_left _ stood
  · rw [taken]
    rcases List.mem_append.mp stood with stood | stood
    · exact List.mem_append_left _ stood
    · rcases List.mem_cons.mp stood with rfl | stood
      · simp [agrees like.symm]
      · simp [stood]

theorem put_self (operations : List (OperationKind × Name)) (o : OperationKind × Name) :
    o ∈ combineOperations.put operations o := by
  rcases put_cases operations o with last | ⟨before, y, after, _, _, taken⟩
  · simp [last]
  · simp [taken]

theorem put_origin {operations : List (OperationKind × Name)} {o x : OperationKind × Name}
    (stands : x ∈ combineOperations.put operations o) : x ∈ operations ∨ x = o := by
  rcases put_cases operations o with last | ⟨before, y, after, rfl, _, taken⟩
  · rw [last] at stands
    simpa using stands
  · rw [taken, List.mem_append, List.mem_cons] at stands
    rcases stands with stands | rfl | stands
    · exact Or.inl (List.mem_append_left _ stands)
    · exact Or.inr rfl
    · exact Or.inl (by simp [stands])

theorem combineOperations_stands {left right : List (OperationKind × Name)}
    {x : OperationKind × Name} (stood : x ∈ left ∨ x ∈ right)
    (agrees : ∀ y ∈ right, y.1 = x.1 → y = x) : x ∈ combineOperations left right := by
  induction right generalizing left with
  | nil => simpa [combineOperations] using stood
  | cons o rest ih =>
    have rest_agrees := fun y member => agrees y (List.mem_cons_of_mem _ member)
    change x ∈ combineOperations (combineOperations.put left o) rest
    refine ih ?_ rest_agrees
    rcases stood with stood | stood
    · exact Or.inl (put_stands stood (agrees o List.mem_cons_self))
    · rcases List.mem_cons.mp stood with rfl | stood
      · exact Or.inl (put_self left x)
      · exact Or.inr stood

theorem combineOperations_origin {left right : List (OperationKind × Name)}
    {x : OperationKind × Name} (stands : x ∈ combineOperations left right) :
    x ∈ left ∨ x ∈ right := by
  induction right generalizing left with
  | nil => exact Or.inl stands
  | cons o rest ih =>
    change x ∈ combineOperations (combineOperations.put left o) rest at stands
    rcases ih stands with first | later
    · rcases put_origin first with before | rfl
      · exact Or.inl before
      · exact Or.inr List.mem_cons_self
    · exact Or.inr (List.mem_cons_of_mem _ later)

/-- Whether a definition is neither of the schema nor of a type. -/
def Aside : Definition → Prop
  | .directive _ | .operation _ | .fragment _ => True
  | _ => False

/-- What merging two definitions with one key makes. -/
inductive Settled : Definition → Definition → Definition → Prop
  | schema {a b d : SchemaDefinition}
      (operations : d.operations = combineOperations a.operations b.operations) :
      Settled (.schema a) (.schema b) (.schema d)
  | type {a b d : TypeDefinition} (same : a.name = b.name) (name : d.name = b.name)
      (kind : d.body.kind = b.body.kind) : Settled (.type a) (.type b) (.type d)
  | aside {l r d : Definition} (left : Aside l) (right : Aside r) (made : Aside d) : Settled l r d

theorem settled {l r : Definition} (left : l.Whole) (right : r.Whole) (same : r.key = l.key)
    (s : σ) : Settled l r ((definitions p l r).run s).1 := by
  cases l with
  | schemaExtension => cases left
  | typeExtension => cases left
  | schema a =>
    cases r with
    | schema b => exact .schema rfl
    | schemaExtension => cases right
    | _ => cases same
  | type a =>
    cases r with
    | type b =>
      have same : a.name = b.name := (Definition.Key.type.inj same).symm
      exact .type same (types_run same s).1 (types_run same s).2
    | typeExtension => cases right
    | _ => cases same
  | directive | operation | fragment =>
    cases r with
    | schemaExtension | typeExtension => cases right
    | schema | type => cases same
    | directive | operation | fragment => exact .aside trivial trivial trivial

theorem not_lists {d : Definition} (aside : Aside d) (kind : OperationKind) (name : Name) :
    ¬ d.Lists kind name := by
  cases d <;> first | exact id | cases aside

theorem not_declares {d : Definition} (aside : Aside d) (name : Name) (kind : TypeKind) :
    ¬ d.Declares name kind := by
  cases d <;> first | exact id | cases aside

theorem not_ofSchema {d : Definition} (aside : Aside d) : ¬ d.OfSchema () () := by
  cases d <;> first | exact id | cases aside

theorem kept_lists : Kept p Definition.Lists where
  stands := by
    intro l r s kind name left right same said agrees
    have made := settled (p := p) left right same s
    generalize ((definitions p l r).run s).1 = d at made ⊢
    cases made with
    | @schema a b d operations =>
      have stands : (kind, name) ∈ combineOperations a.operations b.operations := by
        apply combineOperations_stands said
        rintro ⟨other, own⟩ member rfl
        rw [agrees own member]
      rwa [← operations] at stands
    | type => rcases said with said | said <;> cases said
    | aside left right _ =>
      rcases said with said | said
      · exact absurd said (not_lists left kind name)
      · exact absurd said (not_lists right kind name)
  origin := by
    intro l r s kind name left right same said
    have made := settled (p := p) left right same s
    generalize ((definitions p l r).run s).1 = d at made said
    cases made with
    | schema operations =>
      apply combineOperations_origin
      rwa [← operations]
    | type => cases said
    | aside _ _ made => exact absurd said (not_lists made kind name)

theorem kept_declares : Kept p Definition.Declares where
  stands := by
    intro l r s name kind left right same said agrees
    have made := settled (p := p) left right same s
    generalize ((definitions p l r).run s).1 = d at made ⊢
    cases made with
    | schema => rcases said with said | said <;> cases said
    | type names own_name own_kind =>
      rcases said with ⟨rfl, rfl⟩ | ⟨rfl, rfl⟩
      · exact ⟨own_name.trans names.symm, own_kind.trans (agrees _ ⟨names.symm, rfl⟩)⟩
      · exact ⟨own_name, own_kind⟩
    | aside left right _ =>
      rcases said with said | said
      · exact absurd said (not_declares left name kind)
      · exact absurd said (not_declares right name kind)
  origin := by
    intro l r s name kind left right same said
    have made := settled (p := p) left right same s
    generalize ((definitions p l r).run s).1 = d at made said
    cases made with
    | schema => cases said
    | type names own_name own_kind =>
      obtain ⟨rfl, rfl⟩ := said
      exact Or.inr ⟨own_name.symm, own_kind.symm⟩
    | aside _ _ made => exact absurd said (not_declares made name kind)

theorem kept_ofSchema : Kept p Definition.OfSchema where
  stands := by
    intro l r s _ _ left right same said agrees
    have made := settled (p := p) left right same s
    generalize ((definitions p l r).run s).1 = d at made ⊢
    cases made with
    | schema => trivial
    | type => rcases said with said | said <;> cases said
    | aside left right _ =>
      rcases said with said | said
      · exact absurd said (not_ofSchema left)
      · exact absurd said (not_ofSchema right)
  origin := by
    intro l r s _ _ left right same said
    have made := settled (p := p) left right same s
    generalize ((definitions p l r).run s).1 = d at made said
    cases made with
    | schema => exact Or.inl trivial
    | type => cases said
    | aside _ _ made => exact absurd said (not_ofSchema made)

theorem blind_lists : Blind Definition.Lists := by
  intro d kind name
  cases d <;> rfl

theorem blind_declares : Blind Definition.Declares := by
  intro d name kind
  cases d <;> rfl

theorem blind_ofSchema : Blind Definition.OfSchema := by
  intro d _ _
  cases d <;> rfl

open Schema

/-- The schemas of two documents and of their merge. -/
structure Built (p : ConflictPolicy (StateM σ)) (s : σ) (left right : Document)
    (sL sR sM : Schema) : Prop where
  left_built : build? .adopt left = some sL
  right_built : build? .adopt right = some sR
  merged_built : build? .adopt ((left.merge p right).run s).1 = some sM

/-- Whether two documents name their roots of a kind in one way: one of them lists the kind, or
neither has a schema definition or extension and the right one has nothing but an object under the
conventional name. -/
def Agree (left right : Document) (sR : Schema) (kind : OperationKind) : Prop :=
  (∃ name, left.Says Definition.Lists kind name ∨ right.Says Definition.Lists kind name) ∨
    (¬ left.Says Definition.OfSchema () () ∧ ¬ right.Says Definition.OfSchema () () ∧
      ∀ t ∈ sR.types, t.name = kind.defaultRoot → t.kind = .object)

section

variable {s : σ} {left right : Document} {sL sR sM : Schema} {kind : OperationKind} {name : Name}

/-- A root that the right document lists is the one of the merge. -/
theorem root_of_right_lists (built : Built p s left right sL sR sM)
    (lists : right.Says Definition.Lists kind name) : sM.root? kind = some name := by
  have right_adopts := adopts_of_build? built.right_built
  exact (adopts_of_build? built.merged_built).root_of_lists
    (merge_stands_right kept_lists blind_lists s lists (right_adopts.lists_agree lists))

/-- A root that the left document lists is the one of the merge if the right one lists none. -/
theorem root_of_left_lists (built : Built p s left right sL sR sM)
    (lists : left.Says Definition.Lists kind name)
    (silent : ∀ other, ¬ right.Says Definition.Lists kind other) : sM.root? kind = some name := by
  have left_adopts := adopts_of_build? built.left_built
  exact (adopts_of_build? built.merged_built).root_of_lists
    (merge_stands_left kept_lists blind_lists s lists (left_adopts.lists_agree lists) silent)

/-- Where no document is about the schema, the merge has a root of each kind that has a conventional
object in one of them, unless the right one has something else under the name. -/
theorem root_of_conventional (built : Built p s left right sL sR sM)
    (left_silent : ¬ left.Says Definition.OfSchema () ())
    (right_silent : ¬ right.Says Definition.OfSchema () ())
    (fits : ∀ t ∈ sR.types, t.name = kind.defaultRoot → t.kind = .object)
    (object : (∃ t ∈ sL.types, t.name = kind.defaultRoot ∧ t.kind = .object) ∨
      ∃ t ∈ sR.types, t.name = kind.defaultRoot ∧ t.kind = .object) :
    sM.root? kind = some kind.defaultRoot := by
  have left_adopts := adopts_of_build? built.left_built
  have right_adopts := adopts_of_build? built.right_built
  have merged_adopts := adopts_of_build? built.merged_built
  have custom := defaultRoot_custom kind
  have silent : ¬ Document.Says Definition.OfSchema ((left.merge p right).run s).1 () () :=
    fun said => (merge_origin kept_ofSchema blind_ofSchema s said).elim left_silent right_silent
  have right_object (own : TypeKind)
      (said : right.Says Definition.Declares kind.defaultRoot own) : own = .object := by
    obtain ⟨t, member, named⟩ := right_adopts.type_of_declares said custom
    exact (right_adopts.kind_of_declares said member named).symm.trans (fits t member named)
  have declared : Document.Says Definition.Declares ((left.merge p right).run s).1
      kind.defaultRoot .object := by
    by_cases spoken : ∃ own, right.Says Definition.Declares kind.defaultRoot own
    · obtain ⟨own, said⟩ := spoken
      rw [right_object own said] at said
      exact merge_stands_right kept_declares blind_declares s said right_object
    · have unspoken := not_exists.mp spoken
      rcases object with ⟨t, member, named, is_object⟩ | ⟨t, member, named, _⟩
      · have said := left_adopts.declares_of_type member
        rw [named, is_object] at said
        refine merge_stands_left kept_declares blind_declares s said (fun own other => ?_) unspoken
        exact (left_adopts.kind_of_declares other member named).symm.trans is_object
      · have said := right_adopts.declares_of_type member
        rw [named] at said
        exact absurd said (unspoken _)
  obtain ⟨t, member, named⟩ := merged_adopts.type_of_declares declared custom
  have is_object := merged_adopts.kind_of_declares declared member named
  exact merged_adopts.root_implied silent member named is_object

end

/-- A merge has the root that the right document lists. Where the two documents agree on how roots
of a kind are named, it has a root of the kind if one of them does, and the left one if the right
document has none. -/
theorem merge_keeps_roots {s : σ} {left right : Document} {sL sR sM : Schema}
    (built : Built p s left right sL sR sM) (kind : OperationKind) :
    (∀ name, right.Says Definition.Lists kind name → sM.root? kind = some name) ∧
      (Agree left right sR kind →
        (sL.root? kind ≠ none ∨ sR.root? kind ≠ none → sM.root? kind ≠ none) ∧
          (sR.root? kind = none → ∀ name, sL.root? kind = some name →
            sM.root? kind = some name)) := by
  have left_adopts := adopts_of_build? built.left_built
  have right_adopts := adopts_of_build? built.right_built
  refine ⟨fun name lists => root_of_right_lists built lists, fun agree => ?_⟩
  by_cases right_lists : ∃ name, right.Says Definition.Lists kind name
  · obtain ⟨name, lists⟩ := right_lists
    have root := root_of_right_lists built lists
    refine ⟨fun _ => by simp [root], fun without => ?_⟩
    rw [right_adopts.root_of_lists lists] at without
    cases without
  have silent := not_exists.mp right_lists
  by_cases left_lists : ∃ name, left.Says Definition.Lists kind name
  · obtain ⟨name, lists⟩ := left_lists
    have root := root_of_left_lists built lists silent
    refine ⟨fun _ => by simp [root], fun _ other left_root => ?_⟩
    rw [left_adopts.root_of_lists lists] at left_root
    rw [root, left_root]
  have unlisted := not_exists.mp left_lists
  -- Neither side lists the kind, so its roots can only go without saying.
  rcases agree with ⟨name, lists | lists⟩ | ⟨left_silent, right_silent, fits⟩
  · exact absurd lists (unlisted name)
  · exact absurd lists (silent name)
  have of_left {name : Name} (root : sL.root? kind = some name) :
      name = kind.defaultRoot ∧ ∃ t ∈ sL.types, t.name = name ∧ t.kind = .object :=
    (left_adopts.root_origin root).resolve_left (unlisted name)
  have of_right {name : Name} (root : sR.root? kind = some name) :
      name = kind.defaultRoot ∧ ∃ t ∈ sR.types, t.name = name ∧ t.kind = .object :=
    (right_adopts.root_origin root).resolve_left (silent name)
  have conventional := root_of_conventional built left_silent right_silent fits
  constructor
  · rintro (some_root | some_root)
    · obtain ⟨name, root⟩ := Option.ne_none_iff_exists'.mp some_root
      obtain ⟨rfl, object⟩ := of_left root
      simp [conventional (Or.inl object)]
    · obtain ⟨name, root⟩ := Option.ne_none_iff_exists'.mp some_root
      obtain ⟨rfl, object⟩ := of_right root
      simp [conventional (Or.inr object)]
  · intro _ name root
    obtain ⟨rfl, object⟩ := of_left root
    exact conventional (Or.inl object)

theorem built_of_run (left right : Document) (passes : Schema → Schema → Schema → Bool)
    (run : ((build? .adopt left).any fun sL => (build? .adopt right).any fun sR =>
      (build? .adopt ((left.merge (.keepRight : ConflictPolicy (StateM Unit)) right).run ()).1).any
        fun sM => passes sL sR sM) = true) :
    ∃ sL sR sM, Built .keepRight () left right sL sR sM ∧ passes sL sR sM = true := by
  obtain ⟨sL, left_built, run⟩ := (Option.any_eq_true _ _).mp run
  obtain ⟨sR, right_built, run⟩ := (Option.any_eq_true _ _).mp run
  obtain ⟨sM, merged_built, run⟩ := (Option.any_eq_true _ _).mp run
  exact ⟨sL, sR, sM, ⟨left_built, right_built, merged_built⟩, run⟩

theorem merge_keeps_roots_listed_and_conventional :
    (∃ left right sL sR sM, Built .keepRight () left right sL sR sM ∧
      right.Says Definition.Lists .query "Root" ∧ sM.root? .query = some "Root" ∧
      Agree left right sR .mutation ∧ sR.root? .mutation = none ∧
      sL.root? .mutation = some "Change" ∧ sM.root? .mutation = some "Change") ∧
    (∃ left right sL sR sM, Built .keepRight () left right sL sR sM ∧
      Agree left right sR .query ∧ sR.root? .query ≠ none ∧ sM.root? .query ≠ none) := by
  constructor
  · let left := documentOf
      "schema { query: Query mutation: Change } type Query { a: Int } type Change { b: Int }"
    let right := documentOf "extend schema { query: Root } type Root { c: Int }"
    obtain ⟨sL, sR, sM, built, passes⟩ := built_of_run left right
      (fun sL sR _ => sL.root? .mutation == some "Change" && sR.root? .mutation == none)
      (by decide +kernel)
    simp only [Bool.and_eq_true, beq_iff_eq] at passes
    have lists : right.Says Definition.Lists .query "Root" := by decide +kernel
    have also : left.Says Definition.Lists .mutation "Change" := by decide +kernel
    have agree : Agree left right sR .mutation := Or.inl ⟨_, Or.inl also⟩
    exact ⟨left, right, sL, sR, sM, built, lists,
      (merge_keeps_roots built .query).1 "Root" lists, agree, passes.2, passes.1,
      ((merge_keeps_roots built .mutation).2 agree).2 passes.2 "Change" passes.1⟩
  · let left := documentOf "type Query { a: Int }"
    let right := documentOf "extend type Query { b: Int }"
    obtain ⟨sL, sR, sM, built, passes⟩ := built_of_run left right
      (fun _ sR _ => (sR.root? .query).isSome &&
        sR.types.all fun t => decide (t.name = OperationKind.query.defaultRoot → t.kind = .object))
      (by decide +kernel)
    simp only [Bool.and_eq_true, List.all_eq_true, decide_eq_true_eq] at passes
    have agree : Agree left right sR .query :=
      Or.inr ⟨by decide +kernel, by decide +kernel, passes.2⟩
    have root := Option.isSome_iff_ne_none.mp passes.1
    exact ⟨left, right, sL, sR, sM, built, agree, root,
      ((merge_keeps_roots built .query).2 agree).1 (Or.inr root)⟩

/-- A conventional root is lost to a schema definition of the other document that does not list it,
and to a type of another kind under its name. -/
theorem roots_can_be_lost :
    (¬ ∀ (left right : Document) (sL sR sM : Schema) (kind : OperationKind),
      Built .keepRight () left right sL sR sM → sR.root? kind ≠ none → sM.root? kind ≠ none) ∧
    (¬ ∀ (left right : Document) (sL sR sM : Schema) (kind : OperationKind) (name : Name),
      Built .keepRight () left right sL sR sM → sR.root? kind = none → sL.root? kind = some name →
      sM.root? kind = some name) := by
  constructor
  · intro claim
    obtain ⟨sL, sR, sM, built, passes⟩ := built_of_run
      (documentOf "schema { query: Query } type Query { a: Int }")
      (documentOf "type Query { a: Int } type Mutation { b: Int }")
      (fun _ sR sM => (sR.root? .mutation).isSome && (sM.root? .mutation).isNone)
      (by decide +kernel)
    simp only [Bool.and_eq_true, Option.isSome_iff_ne_none, Option.isNone_iff_eq_none] at passes
    exact claim _ _ sL sR sM .mutation built passes.1 passes.2
  · intro claim
    obtain ⟨sL, sR, sM, built, passes⟩ := built_of_run
      (documentOf "type Query { a: Int } type Mutation { b: Int }")
      (documentOf "enum Mutation { A } type Query { a: Int }")
      (fun sL sR sM => sR.root? .mutation == none &&
        sL.root? .mutation == some "Mutation" && sM.root? .mutation == none) (by decide +kernel)
    simp only [Bool.and_eq_true, beq_iff_eq] at passes
    have root := claim _ _ sL sR sM .mutation "Mutation" built passes.1.1 passes.1.2
    rw [passes.2] at root
    cases root

end Merge
end SchemaStitch
