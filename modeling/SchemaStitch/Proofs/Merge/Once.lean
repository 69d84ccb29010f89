import SchemaStitch.Proofs.Merge.Facts

/-! A merge defines everything once: it has each key of the two sides, and no key but that of
operations without a name twice, so consolidating it again changes nothing and settles nothing.
Where a policy keeps names, no item of a list comes to stand in it twice. -/
namespace SchemaStitch
open Sdl

/-- Whether a policy answers items under the name that it was asked about. -/
structure ConflictPolicy.KeepsNames {σ : Type} (p : ConflictPolicy (StateM σ)) : Prop where
  field : ∀ owner l r s, l.name = r.name → ((p.field owner l r).run s).1.name = r.name
  directive : ∀ owner l r s, l.name = r.name → ((p.directive owner l r).run s).1.name = r.name
  enumValue : ∀ owner l r s, l.name = r.name → ((p.enumValue owner l r).run s).1.name = r.name
  unionMember : ∀ owner n s, ((p.unionMember owner n n).run s).1 = n

namespace Sdl

/-- The lists of a definition. Members are fields, values or the members of a union. -/
inductive Part where
  | directives
  | members
  | operations
  | interfaces
  | arguments

namespace Definition

def directiveNames : Definition → List Name
  | .schema s | .schemaExtension s => s.directives.map (·.name)
  | .type t | .typeExtension t => t.directives.map (·.name)
  | .directive _ => []
  | .operation o => o.directives.map (·.name)
  | .fragment f => f.directives.map (·.name)

/-- The names of the fields, values or members of the type that a definition is of. -/
def memberNames : Definition → List Name
  | .type t | .typeExtension t => t.body.memberNames
  | _ => []

def interfaces : Definition → List Name
  | .type t | .typeExtension t => t.body.interfaces
  | _ => []

def operations : Definition → List (OperationKind × Name)
  | .schema s | .schemaExtension s => s.operations
  | _ => []

/-- The names of the arguments or variables that a definition declares. -/
def argumentNames : Definition → List Name
  | .directive d => d.arguments.map (·.name)
  | .operation o => o.parameters.map (·.name)
  | _ => []

/-- Whether no two items in a list of a definition have one name. -/
def Distinct (d : Definition) : Part → Prop
  | .directives => d.directiveNames.Nodup
  | .members => d.memberNames.Nodup
  | .operations => (d.operations.map Prod.fst).Nodup
  | .interfaces => d.interfaces.Nodup
  | .arguments => d.argumentNames.Nodup

instance (d : Definition) (part : Part) : Decidable (d.Distinct part) :=
  match part with
  | .directives => inferInstanceAs (Decidable d.directiveNames.Nodup)
  | .members => inferInstanceAs (Decidable d.memberNames.Nodup)
  | .operations => inferInstanceAs (Decidable (d.operations.map Prod.fst).Nodup)
  | .interfaces => inferInstanceAs (Decidable d.interfaces.Nodup)
  | .arguments => inferInstanceAs (Decidable d.argumentNames.Nodup)

end Definition
end Sdl

namespace Merge

variable {σ : Type} {p : ConflictPolicy (StateM σ)}

/-- Two schemas and two types are merged; of any other two definitions one stands. -/
theorem definitions_cases {m : Type → Type} [Monad m] (q : ConflictPolicy m) (l r : Definition) :
    (∃ a b, l = .schema a ∧ r = .schema b) ∨ (∃ a b, l = .type a ∧ r = .type b) ∨
      definitions q l r = pure l ∨ definitions q l r = pure r := by
  cases l <;> cases r <;> simp [definitions]

theorem definitions_key {l r : Definition} (same : l.key = r.key) (s : σ) :
    ((definitions p l r).run s).1.key = l.key := by
  rcases definitions_cases p l r with ⟨a, b, rfl, rfl⟩ | ⟨a, b, rfl, rfl⟩ | left | right
  · rfl
  · have name := (types_run (p := p) (Definition.Key.type.inj same) s).1
    exact (congrArg Definition.Key.type name).trans same.symm
  · rw [left]
    rfl
  · rw [right]
    exact same.symm

theorem keeps_key : Keeps identity (definitions p) Definition.key := by
  intro x y k s left right
  have same : x.key = y.key :=
    (identity_eq_some.mp left).1.trans (identity_eq_some.mp right).1.symm
  exact ⟨same, definitions_key same s⟩

theorem keeps_identity : Keeps identity (definitions p) identity := by
  intro x y k s left right
  obtain ⟨_, same⟩ := keeps_key (p := p) x y k s left right
  exact ⟨left.trans right.symm, by rw [identity, same, identity]⟩

theorem key_asDefinition (d : Definition) : d.asDefinition.key = d.key := by
  cases d <;> rfl

theorem nodup_consolidate (d : Document) (s : σ) :
    ((((d.consolidate p).run s).1).filterMap identity).Nodup := by
  rw [Document.consolidate, foldAll_eq_placeAll]
  have nothing : (([] : Document).filterMap identity).Nodup := List.nodup_nil
  exact nodup_placeAll keeps_identity nothing s

theorem nodup_merge (left right : Document) (s : σ) :
    ((((left.merge p right).run s).1).filterMap identity).Nodup := by
  rw [merge_run, foldAll_eq_placeAll]
  exact nodup_placeAll keeps_identity (nodup_consolidate left s) _

theorem pairwise_of_nodup {d : Document} (nodup : (d.filterMap identity).Nodup) :
    d.Pairwise fun a b => a.key = b.key → a.key = .executable none := by
  rw [List.Nodup, List.pairwise_filterMap] at nodup
  refine nodup.imp fun {a b} apart same => ?_
  by_contra known
  have left : identity a = some a.key := identity_eq_some.mpr ⟨rfl, known⟩
  have right : identity b = some a.key := identity_eq_some.mpr ⟨same.symm, known⟩
  exact apart _ left _ right rfl

theorem mem_keys_consolidate (d : Document) (s : σ) (k : Definition.Key) :
    k ∈ ((d.consolidate p).run s).1.map Definition.key ↔ k ∈ d.map Definition.key := by
  have blind : (d.map Definition.asDefinition).map Definition.key = d.map Definition.key := by
    rw [List.map_map]
    exact List.map_congr_left fun x _ => key_asDefinition x
  rw [Document.consolidate, foldAll_eq_placeAll, mem_map_placeAll keeps_key, blind]
  simp

theorem mem_keys_merge (left right : Document) (s : σ) (k : Definition.Key) :
    k ∈ ((left.merge p right).run s).1.map Definition.key ↔
      k ∈ left.map Definition.key ∨ k ∈ right.map Definition.key := by
  rw [merge_run, foldAll_eq_placeAll, mem_map_placeAll keeps_key, mem_keys_consolidate,
    mem_keys_consolidate]

theorem merge_whole (left right : Document) (s : σ) :
    ∀ x ∈ ((left.merge p right).run s).1, x.Whole := by
  rw [merge_run]
  exact foldAll_whole (consolidate_whole right _) (consolidate_whole left s) _

theorem asDefinition_of_whole {d : Definition} (whole : d.Whole) : d.asDefinition = d := by
  cases d with
  | schemaExtension | typeExtension => cases whole
  | _ => rfl

/-- A document without extensions and with no key twice is consolidated without a question. -/
theorem consolidate_eq_pure {m : Type → Type} [Monad m] [LawfulMonad m] (q : ConflictPolicy m)
    {d : Document} (whole : ∀ x ∈ d, x.Whole) (nodup : (d.filterMap identity).Nodup) :
    d.consolidate q = pure d := by
  have unchanged : d.map Definition.asDefinition = d := by
    rw [List.map_congr_left fun x member => asDefinition_of_whole (whole x member), List.map_id']
  rw [Document.consolidate, unchanged, foldAll_eq_placeAll]
  exact placeAll_fresh nodup

theorem keeps_named {α : Type} {name : α → Name} {ask : α → α → StateM σ α}
    (answers : ∀ x y s, name x = name y → name ((ask x y).run s).1 = name y) :
    Keeps (named name) ask (named name) := by
  intro x y k s left right
  have same : name x = name y := Option.some.inj (left.trans right.symm)
  exact ⟨congrArg some same, congrArg some ((answers x y s same).trans same.symm)⟩

section
variable (keeps : p.KeepsNames)
include keeps

theorem keeps_directive (owner : Name) :
    Keeps (named Directive.name) (p.directive owner) (named Directive.name) :=
  keeps_named (keeps.directive owner)

theorem keeps_enumValue (owner : Name) :
    Keeps (named EnumValue.name) (p.enumValue owner) (named EnumValue.name) :=
  keeps_named (keeps.enumValue owner)

theorem keeps_unionMember (owner : Name) :
    Keeps (named id) (p.unionMember owner) (named id) := by
  refine keeps_named fun x y s same => ?_
  obtain rfl : x = y := same
  exact keeps.unionMember owner x s

theorem keeps_outputField (owner : Name) :
    Keeps (named Field.name) (p.outputField owner) (named Field.name) := by
  refine keeps_named fun x y s same => ?_
  have answered := keeps.field owner (.output x) (.output y) s same
  rw [ConflictPolicy.outputField, StateT.run_bind]
  generalize (p.field owner (.output x) (.output y)).run s = asked at answered ⊢
  obtain ⟨answer, s'⟩ := asked
  cases answer with
  | output f => exact answered
  | input f => rfl

theorem keeps_inputField (owner : Name) :
    Keeps (named InputField.name) (p.inputField owner) (named InputField.name) := by
  refine keeps_named fun x y s same => ?_
  have answered := keeps.field owner (.input x) (.input y) s same
  rw [ConflictPolicy.inputField, StateT.run_bind]
  generalize (p.field owner (.input x) (.input y)).run s = asked at answered ⊢
  obtain ⟨answer, s'⟩ := asked
  cases answer with
  | input f => exact answered
  | output f => rfl

end

theorem nodup_combine {α : Type} {name : α → Name} {ask : α → α → StateM σ α}
    (keeps : Keeps (named name) ask (named name)) {left : List α} (nodup : (left.map name).Nodup)
    (right : List α) (s : σ) : (((combine name ask left right).run s).1.map name).Nodup := by
  rw [← filterMap_named] at nodup ⊢
  rw [combine_eq_placeAll]
  exact nodup_placeAll keeps nodup s

theorem nodup_combineOperations {left : List (OperationKind × Name)}
    (nodup : (left.map Prod.fst).Nodup) (right : List (OperationKind × Name)) :
    ((combineOperations left right).map Prod.fst).Nodup := by
  rw [← filterMap_named] at nodup ⊢
  rw [combineOperations_eq_placedAll]
  exact nodup_placedAll nodup (fun _ _ _ _ own => own) right

theorem nodup_unionNames (left right : List Name) : (unionNames left right).Nodup := by
  have nodup : (([] : List Name).filterMap (named id)).Nodup := List.nodup_nil
  have union := nodup_placedAll (f := fun present _ => present) nodup
    (fun _ _ _ present _ => present) (left ++ right)
  rw [← collect_eq_placedAll, filterMap_named, List.map_id] at union
  exact union

theorem nodup_bodies (keeps : p.KeepsNames) {owner : Name} {left right : TypeBody}
    {body : StateM σ TypeBody} (made : combineBodies? p owner left right = some body) (s : σ) :
    (left.memberNames.Nodup → (body.run s).1.memberNames.Nodup) ∧
      (body.run s).1.interfaces.Nodup := by
  cases left <;> cases right <;> cases made
  case scalar.scalar => exact ⟨id, List.nodup_nil⟩
  case object.object is fs js gs =>
    exact ⟨fun nodup => nodup_combine (keeps_outputField keeps owner) nodup gs s,
      nodup_unionNames is js⟩
  case interface.interface is fs js gs =>
    exact ⟨fun nodup => nodup_combine (keeps_outputField keeps owner) nodup gs s,
      nodup_unionNames is js⟩
  case union.union ms ns =>
    refine ⟨fun nodup => ?_, List.nodup_nil⟩
    have names := nodup_combine (keeps_unionMember keeps owner) (nodup.map_on (by simp)) ns s
    exact names.of_map _
  case enum.enum vs ws =>
    exact ⟨fun nodup => nodup_combine (keeps_enumValue keeps owner) nodup ws s, List.nodup_nil⟩
  case input.input fs gs =>
    exact ⟨fun nodup => nodup_combine (keeps_inputField keeps owner) nodup gs s, List.nodup_nil⟩

theorem types_distinct (keeps : p.KeepsNames) {left right : TypeDefinition} {part : Part}
    (own : (Definition.type left).Distinct part) (other : (Definition.type right).Distinct part)
    (s : σ) : (Definition.type ((types p left right).run s).1).Distinct part := by
  rw [types]
  split
  · exact other
  · rename_i body made
    have bodies := nodup_bodies keeps made
      ((combineDirectives p left.name left.directives right.directives).run s).2
    cases part with
    | directives => exact nodup_combine (keeps_directive keeps left.name) own right.directives s
    | members => exact bodies.1 own
    | interfaces => exact bodies.2
    | operations | arguments => exact List.nodup_nil

theorem schemas_distinct (keeps : p.KeepsNames) {left right : SchemaDefinition} {part : Part}
    (own : (Definition.schema left).Distinct part) (s : σ) :
    (Definition.schema ((schemas p left right).run s).1).Distinct part := by
  cases part with
  | directives => exact nodup_combine (keeps_directive keeps "schema") own right.directives s
  | operations => exact nodup_combineOperations own right.operations
  | members | interfaces | arguments => exact List.nodup_nil

theorem definitions_distinct (keeps : p.KeepsNames) {l r : Definition} {part : Part}
    (left : l.Distinct part) (right : r.Distinct part) (s : σ) :
    ((definitions p l r).run s).1.Distinct part := by
  rcases definitions_cases p l r with ⟨a, b, rfl, rfl⟩ | ⟨a, b, rfl, rfl⟩ | same | same
  · exact schemas_distinct keeps left s
  · exact types_distinct keeps left right s
  · rwa [same]
  · rwa [same]

theorem distinct_asDefinition {d : Definition} {part : Part} (own : d.Distinct part) :
    d.asDefinition.Distinct part := by
  cases d <;> cases part <;> exact own

theorem consolidate_distinct (keeps : p.KeepsNames) {d : Document} {part : Part}
    (own : ∀ x ∈ d, x.Distinct part) (s : σ) :
    ∀ x ∈ ((d.consolidate p).run s).1, x.Distinct part := by
  have rewritten : ∀ x ∈ d.map Definition.asDefinition, x.Distinct part := by
    intro x member
    obtain ⟨y, stands, rfl⟩ := List.mem_map.mp member
    exact distinct_asDefinition (own y stands)
  rw [Document.consolidate, foldAll_eq_placeAll]
  exact forall_placeAll (by simp) rewritten
    (fun x y k s _ _ left right => definitions_distinct keeps left right s) s

theorem merge_distinct (keeps : p.KeepsNames) {left right : Document} {part : Part}
    (own : ∀ x ∈ left, x.Distinct part) (other : ∀ x ∈ right, x.Distinct part) (s : σ) :
    ∀ x ∈ ((left.merge p right).run s).1, x.Distinct part := by
  rw [merge_run, foldAll_eq_placeAll]
  exact forall_placeAll (consolidate_distinct keeps own s) (consolidate_distinct keeps other _)
    (fun x y k s _ _ left right => definitions_distinct keeps left right s) _

/-- A merge has no extension and no key twice but that of operations without a name, and just the
keys of the two sides; consolidating it leaves it as it is and settles nothing. If the policy keeps
names, a kind of list in which neither side has a name twice has none twice in the merge. -/
theorem merge_defines_once (left right : Document) (s : σ) :
    (∀ d ∈ ((left.merge p right).run s).1, d.Whole) ∧
      ((left.merge p right).run s).1.Pairwise
        (fun a b => a.key = b.key → a.key = .executable none) ∧
      (∀ k, k ∈ ((left.merge p right).run s).1.map Definition.key ↔
        k ∈ left.map Definition.key ∨ k ∈ right.map Definition.key) ∧
      (∀ (m : Type → Type) [Monad m] [LawfulMonad m] (q : ConflictPolicy m),
        Document.consolidate q ((left.merge p right).run s).1 =
          pure ((left.merge p right).run s).1) ∧
      (p.KeepsNames → ∀ part, (∀ d ∈ left ++ right, d.Distinct part) →
        ∀ d ∈ ((left.merge p right).run s).1, d.Distinct part) := by
  have whole := merge_whole (p := p) left right s
  have nodup := nodup_merge (p := p) left right s
  refine ⟨whole, pairwise_of_nodup nodup, mem_keys_merge left right s, ?_, ?_⟩
  · exact fun m _ _ q => consolidate_eq_pure q whole nodup
  · intro keeps part own
    exact merge_distinct keeps (fun x member => own x (List.mem_append_left _ member))
      (fun x member => own x (List.mem_append_right _ member)) s

theorem keepRight_keepsNames : (.keepRight : ConflictPolicy (StateM Unit)).KeepsNames :=
  ⟨fun _ _ _ _ _ => rfl, fun _ _ _ _ _ => rfl, fun _ _ _ _ _ => rfl, fun _ _ _ => rfl⟩

theorem merge_defines_once_extended :
    ∃ left right merged : Document,
      ((left.merge (.keepRight : ConflictPolicy (StateM Unit)) right).run ()).1 = merged ∧
      (.keepRight : ConflictPolicy (StateM Unit)).KeepsNames ∧
      (∀ d ∈ left ++ right, d.Distinct .members) ∧ (∀ d ∈ merged, d.Distinct .members) ∧
      (∀ d ∈ merged, d.Whole) ∧ (left ++ right).length = 5 ∧ merged.length = 2 := by
  let left := documentOf
    "extend type A { x: Int y: Int } { a } type A { x: ID } extend type A { y: ID z: Int }"
  let right := documentOf "type A { z: ID y: Int }"
  have distinct : ∀ d ∈ left ++ right, d.Distinct .members := by decide +kernel
  obtain ⟨whole, _, _, _, once⟩ := merge_defines_once (p := .keepRight) left right ()
  exact ⟨left, right, _, rfl, keepRight_keepsNames, distinct,
    once keepRight_keepsNames .members distinct, whole, by decide +kernel, by decide +kernel⟩

end Merge
end SchemaStitch
