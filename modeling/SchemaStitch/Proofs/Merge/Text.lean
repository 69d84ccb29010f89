import SchemaStitch.Proofs.Merge.Grouping
import SchemaStitch.Proofs.Schema.Members
import SchemaStitch.Proofs.Sdl.Executables

/-! The text of a merge. Consolidating documents that are read from texts and merging them make
nothing that the grammar does not accept, but for schemas without root operations; so a text that is
printed for what they make reads as it, if a schema can be built from what is read. -/
namespace SchemaStitch
open Sdl

/-- A definition that is no extension and whose parts are spelled as the grammar accepts them. -/
structure Sdl.Definition.Printable (d : Definition) : Prop where
  spelled : d.Spelled
  whole : d.Whole

theorem Sdl.Definition.Whole.lasting_or {d : Definition} (whole : d.Whole) :
    d.Lasting ∨ d.isExecutable = true := by
  cases d with
  | schema s => exact Or.inl trivial
  | type t => exact Or.inl trivial
  | directive d => exact Or.inl trivial
  | operation o => exact Or.inr rfl
  | fragment f => exact Or.inr rfl
  | schemaExtension s => cases whole
  | typeExtension t => cases whole

/-- What is printed for a document reads as the document, if a schema can be built from what is
read. -/
theorem Sdl.Document.eq_of_build?_print {d d' : Document} {policy : OrphanPolicy} {s : Schema}
    (printable : ∀ x ∈ d, x.Printable) (read : parse? (Text.trim d.print) = some d')
    (built : Schema.build? policy d' = some s) : d' = d := by
  have own := parse?_print_any (fun x member => (printable x member).spelled)
    (fun x member => (printable x member).whole.lasting_or) read
  refine own.resolve_right fun executable => ?_
  have free : d'.any Definition.isExecutable = false := Schema.hasExecutable_of_build? built
  rw [executable] at free
  cases free

namespace Merge

variable {α κ : Type} [DecidableEq κ] {name : α → κ}

theorem mem_of_written {left right : List α} {x : α} (member : x ∈ written name left right) :
    x ∈ left ∨ x ∈ right := by
  have groups : Groups (named name) (fun x => x ∈ left ∨ x ∈ right) fun _ own => own :=
    ⟨fun _ _ _ _ own => own, fun _ _ _ _ _ _ own => own, fun _ _ _ _ _ _ _ _ _ _ => rfl⟩
  exact forall_placedAll groups (fun x => Or.inl) (fun x => Or.inr) x member

theorem mem_of_unionNames {left right : List Name} {n : Name}
    (member : n ∈ unionNames left right) : n ∈ left ∨ n ∈ right := by
  rw [unionNames_eq_eraseDups, List.mem_eraseDups] at member
  exact List.mem_append.mp member

theorem forall_written {P : α → Prop} {left right : List α} (all : ∀ x ∈ left, P x)
    (own : ∀ x ∈ right, P x) : ∀ x ∈ written name left right, P x :=
  fun x member => (mem_of_written member).elim (all x) (own x)

theorem forall_unionNames {P : Name → Prop} {left right : List Name} (all : ∀ n ∈ left, P n)
    (own : ∀ n ∈ right, P n) : ∀ n ∈ unionNames left right, P n :=
  fun n member => (mem_of_unionNames member).elim (all n) (own n)

theorem spelled_updatedBody {a b : TypeBody} (left : a.Spelled) (right : b.Spelled) :
    (updatedBody a b).Spelled := by
  cases a <;> cases b <;> try exact right
  · exact ⟨forall_unionNames left.1 right.1, forall_written left.2 right.2⟩
  · exact ⟨forall_unionNames left.1 right.1, forall_written left.2 right.2⟩
  · exact forall_written left right
  · exact forall_written left right
  · exact forall_written left right

theorem spelled_updated {a b : Definition} (left : a.Spelled) (right : b.Spelled) :
    (updated a b).Spelled := by
  cases a with
  | schema s =>
    cases b with
    | schema u =>
      exact ⟨forall_written left.directives right.directives,
        forall_written left.operations right.operations⟩
    | _ => exact right
  | type t =>
    cases b with
    | type u =>
      rw [updated]
      split
      · exact ⟨left.name, forall_written left.directives right.directives,
          spelled_updatedBody left.body right.body⟩
      · exact right
    | _ => exact right
  | directive d => cases b <;> first | exact left | exact right
  | operation o => cases b <;> first | exact left | exact right
  | fragment f => cases b <;> first | exact left | exact right
  | schemaExtension s => exact right
  | typeExtension t => exact right

theorem printable_updated {a b : Definition} (left : a.Printable) (right : b.Printable) :
    (updated a b).Printable :=
  ⟨spelled_updated left.spelled right.spelled, updated_whole left.whole right.whole⟩

theorem spelled_asDefinition {d : Definition} (spelled : d.Spelled) : d.asDefinition.Spelled := by
  cases d with
  | schemaExtension s => exact ⟨spelled.directives, spelled.operations⟩
  | typeExtension t => exact ⟨spelled.name, spelled.directives, spelled.body⟩
  | _ => exact spelled

theorem printable_placedAll {left right : Document} (all : ∀ x ∈ left, x.Printable)
    (own : ∀ x ∈ right, x.Printable) :
    ∀ x ∈ placedAll identity updated left right, x.Printable := by
  have placed : ∀ x ∈ ((placeAll identity
      (fun x y => (pure (updated x y) : StateM Unit Definition)) left right).run ()).1,
      x.Printable := by
    refine forall_placeAll all own (fun x y k s _ _ x_own y_own => ?_) ()
    exact printable_updated x_own y_own
  rwa [placeAll_pure] at placed

theorem printable_consolidated {d : Document} (spelled : ∀ x ∈ d, x.Spelled) :
    ∀ x ∈ d.consolidated, x.Printable := by
  rw [consolidated_eq]
  refine printable_placedAll (by simp) fun x member => ?_
  obtain ⟨y, stands, rfl⟩ := List.mem_map.mp member
  exact ⟨spelled_asDefinition (spelled y stands), y.whole_asDefinition⟩

theorem printable_merged {left right : Document} (left_spelled : ∀ x ∈ left, x.Spelled)
    (right_spelled : ∀ x ∈ right, x.Spelled) : ∀ x ∈ merged left right, x.Printable :=
  printable_placedAll (printable_consolidated left_spelled) (printable_consolidated right_spelled)

end Merge
end SchemaStitch
