import SchemaStitch.Proofs.Pare.Remainder

/-! Paring member by member. The definition of the other document with the key and kind of a
definition takes its directives and members by name, and takes the definition with the last member;
nothing else has a part in what is left. A definition that has no member to begin with goes too if
such a definition stands in the other document, and no other definition goes for nothing. -/
namespace SchemaStitch
open Sdl Merge

namespace Sdl

/-- A body with those of its members whose names pass a test. -/
def TypeBody.filterMembers (keep : Name → Bool) : TypeBody → TypeBody
  | .scalar => .scalar
  | .object is fs => .object is (fs.filter fun f => keep f.name)
  | .interface is fs => .interface is (fs.filter fun f => keep f.name)
  | .union ms => .union (ms.filter keep)
  | .enum vs => .enum (vs.filter fun v => keep v.name)
  | .input fs => .input (fs.filter fun f => keep f.name)

theorem TypeBody.memberNames_filterMembers (keep : Name → Bool) (body : TypeBody) :
    (body.filterMembers keep).memberNames = body.memberNames.filter keep := by
  cases body with
  | scalar => rfl
  | union => rfl
  | _ => exact List.filter_map.symm

theorem TypeBody.filterMembers_all {keep : Name → Bool} {body : TypeBody}
    (all : ∀ n ∈ body.memberNames, keep n = true) : body.filterMembers keep = body := by
  have whole {α : Type} {name : α → Name} {items : List α}
      (all : ∀ n ∈ items.map name, keep n = true) : (items.filter fun x => keep (name x)) = items :=
    List.filter_eq_self.mpr fun x member => all (name x) (List.mem_map_of_mem member)
  cases body with
  | scalar => rfl
  | object is fs => exact congrArg (TypeBody.object is) (whole all)
  | interface is fs => exact congrArg (TypeBody.interface is) (whole all)
  | union ms => exact congrArg TypeBody.union (List.filter_eq_self.mpr all)
  | enum vs => exact congrArg TypeBody.enum (whole all)
  | input fs => exact congrArg TypeBody.input (whole all)

theorem OperationKind.word_injective : Function.Injective OperationKind.word := by
  intro a b same
  cases a <;> cases b <;> first | rfl | exact absurd same (by decide)

namespace Definition

/-- Whether a definition of a kind consists of members. -/
def Kind.HasMembers : Kind → Prop
  | .schema => True
  | .type kind => kind ≠ .scalar
  | _ => False

instance (kind : Kind) : Decidable kind.HasMembers :=
  match kind with
  | .schema => isTrue trivial
  | .type kind => inferInstanceAs (Decidable (kind ≠ .scalar))
  | .directive | .operation | .fragment => isFalse id

/-- The names of the fields, values or members of a type, or the words of the root operations of a
schema. -/
def members : Definition → List Name
  | .schema s | .schemaExtension s => s.operations.map (·.1.word)
  | .type t | .typeExtension t => t.body.memberNames
  | _ => []

/-- The directives that are applied to a schema or type. -/
def applied : Definition → List Directive
  | .schema s | .schemaExtension s => s.directives
  | .type t | .typeExtension t => t.directives
  | _ => []

/-- A schema or type with other directives. -/
def withDirectives (directives : List Directive) : Definition → Definition
  | .schema s => .schema { s with directives }
  | .type t => .type { t with directives }
  | d => d

theorem withDirectives_applied (d : Definition) : d.withDirectives d.applied = d := by
  cases d <;> rfl

/-- What one definition leaves of another: the directives and members that it does not name, and of
a schema the root operations of the kinds that it does not list. -/
def without (l r : Definition) : Definition :=
  match l with
  | .schema s => .schema { s with
      directives := s.directives.filter fun x => !r.directiveNames.contains x.name
      operations := s.operations.filter fun o => !(r.operations.map (·.1)).contains o.1 }
  | .type t => .type { t with
      directives := t.directives.filter fun x => !r.directiveNames.contains x.name
      body := t.body.filterMembers fun n => !r.memberNames.contains n }
  | d => d

theorem key_without (l r : Definition) : (l.without r).key = l.key := by
  cases l <;> rfl

theorem members_of_type {d : Definition} {kind : TypeKind} (type : d.kind = .type kind) :
    d.members = d.memberNames := by
  cases d with
  | type | typeExtension => rfl
  | _ => cases type

theorem mem_words {r : Definition} (schema : r.kind = .schema) (kind : OperationKind) :
    kind.word ∈ r.members ↔ kind ∈ r.operations.map (·.1) := by
  cases r with
  | schema s | schemaExtension s =>
    rw [← List.mem_map_of_injective OperationKind.word_injective, List.map_map]
    rfl
  | _ => cases schema

/-- The members that are left are those that the other definition does not name. -/
theorem members_without {l r : Definition} (whole : l.Whole) (same : l.kind = r.kind)
    (own : l.kind.HasMembers) :
    (l.without r).members = l.members.filter fun n => !r.members.contains n := by
  cases l with
  | schema s =>
    have asked : ((fun n => !r.members.contains n) ∘ fun o : OperationKind × Name => o.1.word) =
        fun o => !(r.operations.map (·.1)).contains o.1 := by
      funext o
      have listed := mem_words same.symm o.1
      simp only [Function.comp_apply, List.contains_eq_mem, listed]
    change (s.operations.filter _).map (·.1.word) = (s.operations.map (·.1.word)).filter _
    rw [List.filter_map, asked]
  | type t =>
    rw [members_of_type same.symm]
    exact t.body.memberNames_filterMembers fun n => !r.memberNames.contains n
  | schemaExtension | typeExtension => cases whole
  | _ => cases own

theorem without_of_unnamed {l r : Definition} (whole : l.Whole) (same : l.kind = r.kind)
    (own : l.kind.HasMembers) (unnamed : ∀ n ∈ l.members, n ∉ r.members) :
    l.without r = l.withDirectives
      (l.applied.filter fun x => !r.directiveNames.contains x.name) := by
  cases l with
  | schema s =>
    have kept : (s.operations.filter fun o => !(r.operations.map (·.1)).contains o.1) =
        s.operations := by
      refine List.filter_eq_self.mpr fun o member => ?_
      have free := unnamed o.1.word (List.mem_map_of_mem (f := fun o => o.1.word) member)
      rw [mem_words same.symm o.1] at free
      simpa only [List.contains_eq_mem, Bool.not_eq_true', decide_eq_false_iff_not] using free
    simp only [without, kept, withDirectives, applied]
  | type t =>
    rw [members_of_type same.symm] at unnamed
    have kept : t.body.filterMembers (fun n => !r.memberNames.contains n) = t.body :=
      TypeBody.filterMembers_all fun n member => by simpa using unnamed n member
    simp only [without, kept, withDirectives, applied]
  | schemaExtension | typeExtension => cases whole
  | _ => cases own

end Definition
end Sdl

namespace Pare

/-- What taking the definitions of a document leaves of a definition. All of it is left if nothing
has its key, or what has it is of another kind; of a definition that has no members by its kind,
nothing; of any other one what is not named, as long as that is a member at least. -/
inductive Leaves (right : Document) (l : Definition) : Option Definition → Prop
  | alone (lacks : ∀ r ∈ right, r.key = l.key → l.key = .executable none) : Leaves right l (some l)
  | unlike {r : Definition} (member : r ∈ right) (same : r.key = l.key)
      (named : l.key ≠ .executable none) (kinds : l.kind ≠ r.kind) : Leaves right l (some l)
  | whole {r : Definition} (member : r ∈ right) (same : r.key = l.key)
      (named : l.key ≠ .executable none) (kinds : l.kind = r.kind) (bare : ¬ l.kind.HasMembers) :
      Leaves right l none
  | part {r : Definition} (member : r ∈ right) (same : r.key = l.key) (kinds : l.kind = r.kind)
      (own : l.kind.HasMembers) (stays : (l.without r).members ≠ []) :
      Leaves right l (some (l.without r))
  | emptied {r : Definition} (member : r ∈ right) (same : r.key = l.key) (kinds : l.kind = r.kind)
      (own : l.kind.HasMembers) (gone : (l.without r).members = []) : Leaves right l none

theorem definition_unlike {l r : Definition} (kinds : l.kind ≠ r.kind) :
    definition l r = .mismatch := by
  cases l with
  | type t =>
    cases r with
    | type u =>
      obtain ⟨_, _, _, body⟩ := t
      obtain ⟨_, _, _, other⟩ := u
      cases body <;> cases other <;> first | rfl | exact absurd rfl kinds
    | _ => rfl
  | _ => cases r <;> first | rfl | exact absurd rfl kinds

theorem definition_bare {l r : Definition} (l_whole : l.Whole) (r_whole : r.Whole)
    (kinds : l.kind = r.kind) (bare : ¬ l.kind.HasMembers) : definition l r = .removed := by
  cases l with
  | type t =>
    cases r with
    | type u =>
      obtain ⟨_, _, _, body⟩ := t
      obtain ⟨_, _, _, other⟩ := u
      cases body with
      | scalar => cases other <;> first | rfl | cases kinds
      | _ => exact absurd (fun same => by cases same) bare
    | typeExtension => cases r_whole
    | _ => cases kinds
  | schema => exact absurd trivial bare
  | schemaExtension | typeExtension => cases l_whole
  | _ => cases r <;> first | rfl | cases kinds

theorem definition_alike {l r : Definition} (l_whole : l.Whole) (r_whole : r.Whole)
    (kinds : l.kind = r.kind) (own : l.kind.HasMembers) :
    definition l r =
      if (l.without r).members.isEmpty then .removed else .kept (l.without r) := by
  cases l with
  | schema s =>
    cases r with
    | schema u =>
      have empty : (((Definition.schema s).without (.schema u)).members).isEmpty =
          (s.operations.filter fun o => !(u.operations.map (·.1)).contains o.1).isEmpty :=
        List.isEmpty_map
      rw [empty]
      rfl
    | schemaExtension => cases r_whole
    | _ => cases kinds
  | type t =>
    cases r with
    | type u =>
      obtain ⟨_, _, _, body⟩ := t
      obtain ⟨_, _, _, other⟩ := u
      cases body <;> cases other <;> first | rfl | cases kinds
    | typeExtension => cases r_whole
    | _ => cases kinds
  | schemaExtension | typeExtension => cases l_whole
  | _ => cases own

theorem leaves_remainder {right : Document} (once : (right.filterMap identity).Nodup)
    (r_whole : ∀ r ∈ right, r.Whole) {l : Definition} (l_whole : l.Whole) :
    Leaves right l (remainder right l) := by
  cases found : counterpart identity right l with
  | none =>
    rw [remainder_alone found]
    refine .alone fun r member same => Classical.byContradiction fun named => ?_
    have known : identity l = some l.key := identity_eq_some.mpr ⟨rfl, named⟩
    have like : identity r = some l.key := identity_eq_some.mpr ⟨same, named⟩
    exact counterpart_eq_none.mp found _ known (List.mem_filterMap.mpr ⟨r, member, like⟩)
  | some r =>
    obtain ⟨member, k, known, like⟩ := of_counterpart found
    have same := keys_of_identity like known
    have named : l.key ≠ .executable none := by
      obtain ⟨own, named⟩ := identity_eq_some.mp known
      rwa [own]
    rw [remainder_of_mem once member known like]
    by_cases kinds : l.kind = r.kind
    · by_cases own : l.kind.HasMembers
      · rw [definition_alike l_whole (r_whole r member) kinds own]
        split
        · rename_i empty
          exact .emptied member same kinds own (List.isEmpty_iff.mp empty)
        · rename_i full
          exact .part member same kinds own fun empty => full (List.isEmpty_iff.mpr empty)
      · rw [definition_bare l_whole (r_whole r member) kinds own]
        exact .whole member same named kinds own
    · rw [definition_unlike kinds]
      exact .unlike member same named kinds

theorem Leaves.key {right : Document} {l d : Definition} (leaves : Leaves right l (some d)) :
    d.key = l.key := by
  cases leaves with
  | part => exact l.key_without _
  | _ => rfl

theorem named_of_emptied {d r : Definition} (whole : d.Whole) (kinds : d.kind = r.kind)
    (own : d.kind.HasMembers) (gone : (d.without r).members = []) :
    ∀ n ∈ d.members, n ∈ r.members := by
  rw [d.members_without whole kinds own, List.filter_eq_nil_iff] at gone
  exact fun n member => by simpa using gone n member

section
variable {right : Document} {d : Definition} (whole : d.Whole) (own : d.kind.HasMembers)
  (shaped : d.members ≠ [] ∨ ∀ r ∈ right, r.key = d.key → d.kind ≠ r.kind)
include whole own shaped

theorem Leaves.emptied_by (leaves : Leaves right d none) :
    ∃ r ∈ right, r.key = d.key ∧ d.kind = r.kind ∧ (∃ n ∈ d.members, n ∈ r.members) ∧
      ∀ n ∈ d.members, n ∈ r.members := by
  cases leaves with
  | whole _ _ _ _ bare => exact absurd own bare
  | @emptied r member same kinds _ gone =>
    have full := shaped.resolve_right fun apart => apart r member same kinds
    obtain ⟨n, first⟩ := List.exists_mem_of_ne_nil _ full
    have all := named_of_emptied whole kinds own gone
    exact ⟨r, member, same, kinds, ⟨n, first, all n first⟩, all⟩

theorem Leaves.unnamed_stay {rest : Option Definition} (leaves : Leaves right d rest)
    (unnamed : ∀ r ∈ right, r.key = d.key → d.kind = r.kind → ∀ n ∈ d.members, n ∉ r.members) :
    ∃ directives, rest = some (d.withDirectives directives) ∧
      (d.applied.filter fun x => ∀ r ∈ right, r.key = d.key → x.name ∉ r.directiveNames).Sublist
        directives := by
  cases leaves with
  | alone | unlike =>
    exact ⟨d.applied, congrArg some d.withDirectives_applied.symm, List.filter_sublist⟩
  | whole _ _ _ _ bare => exact absurd own bare
  | @part r member same kinds =>
    refine ⟨_, congrArg some (Definition.without_of_unnamed whole kinds own
      (unnamed r member same kinds)), List.monotone_filter_right _ fun x free => ?_⟩
    have free := of_decide_eq_true free r member same
    simpa using free
  | @emptied r member same kinds _ gone =>
    have full := shaped.resolve_right fun apart => apart r member same kinds
    obtain ⟨n, first⟩ := List.exists_mem_of_ne_nil _ full
    have named := named_of_emptied whole kinds own gone n first
    exact absurd named (unnamed r member same kinds n first)

end

/-- A definition goes from a pared document for its members only, and stays whole but for directives
that are named if none of its members is. -/
structure Fair (right pared : Document) (d : Definition) : Prop where
  gone : (∀ x ∈ pared, x.key ≠ d.key) → ∃ r ∈ right, r.key = d.key ∧ d.kind = r.kind ∧
    (∃ n ∈ d.members, n ∈ r.members) ∧ ∀ n ∈ d.members, n ∈ r.members
  kept : (∀ r ∈ right, r.key = d.key → d.kind = r.kind → ∀ n ∈ d.members, n ∉ r.members) →
    ∃ directives, d.withDirectives directives ∈ pared ∧
      (d.applied.filter fun x => ∀ r ∈ right, r.key = d.key → x.name ∉ r.directiveNames).Sublist
        directives

end Pare

namespace Sdl.Document

variable {left right : Document}

theorem leaves_consolidated (right : Document) {l : Definition} (member : l ∈ left.consolidated) :
    Pare.Leaves right.consolidated l (Pare.remainder right.consolidated l) :=
  Pare.leaves_remainder (nodup_consolidated right) (whole_consolidated right)
    (whole_consolidated left l member)

theorem mem_pare {map : ResolverMap} {x : Definition} :
    x ∈ (left.pare right map).1 ↔
      ∃ l ∈ left.consolidated, Pare.remainder right.consolidated l = some x := by
  rw [pare_eq, List.mem_filterMap]

/-- Paring is fair to a definition that has a member, or that the other document does not define. -/
theorem pare_fair (map : ResolverMap) {d : Definition} (member : d ∈ left.consolidated)
    (own : d.kind.HasMembers)
    (shaped : d.members ≠ [] ∨ ∀ r ∈ right.consolidated, r.key = d.key → d.kind ≠ r.kind) :
    Pare.Fair right.consolidated (left.pare right map).1 d := by
  have whole := whole_consolidated left d member
  have leaves := leaves_consolidated right member
  constructor
  · intro absent
    cases left_of : Pare.remainder right.consolidated d with
    | some x =>
      rw [left_of] at leaves
      exact absurd leaves.key (absent x (mem_pare.mpr ⟨d, member, left_of⟩))
    | none =>
      rw [left_of] at leaves
      exact leaves.emptied_by whole own shaped
  · intro unnamed
    obtain ⟨directives, left_of, applied⟩ := leaves.unnamed_stay whole own shaped unnamed
    exact ⟨directives, mem_pare.mpr ⟨d, member, left_of⟩, applied⟩

theorem pare_fair_to_extensions :
    ∃ left right : Document, (left.pare right .nil).1.map Definition.key = [.type "T", .type "U"] ∧
      ∀ d ∈ left.consolidated, d.kind.HasMembers ∧
        (d.members ≠ [] ∨ ∀ r ∈ right.consolidated, r.key = d.key → d.kind ≠ r.kind) ∧
        Pare.Fair right.consolidated (left.pare right .nil).1 d := by
  let left := documentOf "type T @a @b { x: Int } enum E { V W } extend input U @a"
  let right := documentOf "extend type T @b { y: Int } enum E { W V X } extend type U @a { x: Int }"
  have own : ∀ d ∈ left.consolidated, d.kind.HasMembers := by decide +kernel
  have shaped : ∀ d ∈ left.consolidated, d.members ≠ [] ∨
      ∀ r ∈ right.consolidated, r.key = d.key → d.kind ≠ r.kind := by decide +kernel
  exact ⟨left, right, by decide +kernel, fun d member => ⟨own d member, shaped d member,
    pare_fair .nil member (own d member) (shaped d member)⟩⟩

/-- A definition that only has directives goes for nothing if the other document gives members to
one of its kind. -/
theorem pare_can_be_unfair :
    ¬ ∀ (left right : Document) (map : ResolverMap), ∀ d ∈ left.consolidated, d.kind.HasMembers →
      Pare.Fair right.consolidated (left.pare right map).1 d := by
  intro claim
  let left := documentOf "extend type T @d type Query { a: Int }"
  let right := documentOf "type T { x: Int }"
  have applied : ∃ d ∈ left.consolidated, d.kind.HasMembers ∧ d.key = .type "T" ∧
      d.members = [] := by decide +kernel
  obtain ⟨d, member, own, key, bare⟩ := applied
  have absent : ∀ x ∈ (left.pare right .nil).1, x.key ≠ .type "T" := by decide +kernel
  obtain ⟨r, _, _, _, ⟨n, first, _⟩, _⟩ := (claim left right .nil d member own).gone (key ▸ absent)
  simp [bare] at first

end Sdl.Document
end SchemaStitch
