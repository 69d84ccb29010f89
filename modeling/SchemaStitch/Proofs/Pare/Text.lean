import SchemaStitch.Proofs.Merge.Text
import SchemaStitch.Proofs.Pare.Takes

/-! The text of what paring leaves. Taking definitions from a consolidated document makes nothing
that the grammar does not accept, but for schemas without root operations; so the text of what is
left reads as what is left, if a schema can be built from what is read. -/
namespace SchemaStitch
open Sdl

namespace Pare

theorem spelled_within {body whole : TypeBody} (within : Within body whole)
    (spelled : whole.Spelled) : body.Spelled := by
  cases within with
  | object fields => exact ⟨spelled.1, fun f member => spelled.2 f (fields.subset member)⟩
  | interface fields => exact ⟨spelled.1, fun f member => spelled.2 f (fields.subset member)⟩
  | union members => exact fun n member => spelled n (members.subset member)
  | enum values => exact fun v member => spelled v (values.subset member)
  | input fields => exact fun f member => spelled f (fields.subset member)

theorem printable_remains {r l d : Definition} (remains : Remains r l d) (own : l.Printable) :
    d.Printable := by
  cases remains with
  | type applied within untaken =>
    exact ⟨⟨own.spelled.name, fun x member => own.spelled.directives x (applied.subset member),
      spelled_within within own.spelled.body⟩, trivial⟩
  | schema applied listed =>
    exact ⟨⟨fun x member => own.spelled.directives x (applied.subset member),
      fun o member => own.spelled.operations o (listed.subset member)⟩, trivial⟩

theorem printable_subtract {roots : List Name} {r : Definition} {left : Document}
    (own : ∀ x ∈ left, x.Printable) (map : ResolverMap) :
    ∀ x ∈ (subtract roots r left map).1, x.Printable := by
  rcases subtract_cases roots r left map with ⟨same, _⟩ | ⟨before, l, after, rfl, _, _, made⟩
  · rwa [same]
  · rw [made]
    intro x member
    rcases List.mem_append.mp member with member | member
    · exact own x (List.mem_append_left _ member)
    · have later (x : Definition) (member : x ∈ after) := own x (by simp [member])
      cases outcome : definition l r with
      | kept d =>
        rw [outcome] at member
        rcases List.mem_cons.mp member with rfl | member
        · exact printable_remains (remains_of_kept outcome) (own l (by simp))
        · exact later x member
      | removed =>
        rw [outcome] at member
        exact later x member
      | mismatch =>
        rw [outcome] at member
        rcases List.mem_cons.mp member with rfl | member
        · exact own x (by simp)
        · exact later x member

theorem printable_subtractAll {roots : List Name} (right : Document) {left : Document}
    (own : ∀ x ∈ left, x.Printable) (map : ResolverMap) :
    ∀ x ∈ (subtractAll roots right left map).1, x.Printable := by
  induction right generalizing left map with
  | nil => exact own
  | cons r rest ih => exact ih (printable_subtract own map) _

end Pare

namespace Sdl.Document

theorem printable_pare {left : Document} (spelled : ∀ x ∈ left, x.Spelled) (right : Document)
    (map : ResolverMap) : ∀ x ∈ (left.pare right map).1, x.Printable :=
  Pare.printable_subtractAll right.consolidated (Merge.printable_consolidated spelled) map

end Sdl.Document
end SchemaStitch
