import SchemaStitch.Sdl.Grammar
import SchemaStitch.Proofs.Merge.Placing
import SchemaStitch.Proofs.Schema.Build

/-! What a merged document says, fact by fact. A fact gives a subject its value; where merging two
definitions with one key keeps the facts of both, and those of the right one where they differ, so
does merging documents. -/
namespace SchemaStitch
open Sdl

/-- Whether a definition is not an extension. -/
def Sdl.Definition.Whole : Definition → Prop
  | .schemaExtension _ | .typeExtension _ => False
  | _ => True

theorem Sdl.Definition.whole_asDefinition (d : Definition) : d.asDefinition.Whole := by
  cases d <;> trivial

namespace Merge

/-- The document of a text, and nothing of a text that is none. -/
def documentOf (text : String) : Document := (Document.parse? text).getD []

variable {σ α β : Type} {p : ConflictPolicy (StateM σ)} {F : Definition → α → β → Prop}

/-- Facts that merging two definitions with one key keeps: what either says stands unless the right
one says otherwise, and nothing else comes in. -/
structure Kept (p : ConflictPolicy (StateM σ)) (F : Definition → α → β → Prop) : Prop where
  stands : ∀ l r s a b, l.Whole → r.Whole → r.key = l.key → F l a b ∨ F r a b →
    (∀ b', F r a b' → b' = b) → F ((definitions p l r).run s).1 a b
  origin : ∀ l r s a b, l.Whole → r.Whole → r.key = l.key →
    F ((definitions p l r).run s).1 a b → F l a b ∨ F r a b

/-- Bodies of one kind make a body of that kind. -/
theorem combineBodies?_kind {owner : Name} {left right : TypeBody} {body : StateM σ TypeBody}
    (made : combineBodies? p owner left right = some body) (s : σ) :
    (body.run s).1.kind = right.kind := by
  cases left <;> cases right <;> cases made <;> rfl

/-- A merged type has the kind of the right one. -/
theorem types_run {left right : TypeDefinition} (same : left.name = right.name) (s : σ) :
    ((types p left right).run s).1.name = right.name ∧
      ((types p left right).run s).1.body.kind = right.body.kind := by
  rw [types]
  split
  · exact ⟨rfl, rfl⟩
  · rename_i body made
    exact ⟨same, combineBodies?_kind made _⟩

theorem definitions_whole {l r : Definition} (left : l.Whole) (right : r.Whole) (s : σ) :
    ((definitions p l r).run s).1.Whole := by
  cases l <;> cases r <;> trivial

theorem fold_stands (kept : Kept p F) {d : Definition} (whole : d.Whole) {into : Document}
    (all : ∀ x ∈ into, x.Whole) (s : σ) {a : α} {b : β} (said : into.Says F a b ∨ F d a b)
    (agrees : ∀ b', F d a b' → b' = b) : Document.Says F ((fold p d into).run s).1 a b := by
  rw [fold_eq_place]
  have found := finds_place identity (definitions p) d into
  generalize place identity (definitions p) d into = placed at found ⊢
  cases found with
  | last fresh =>
    rcases said with ⟨x, member, said⟩ | said
    · exact ⟨x, List.mem_append_left _ member, said⟩
    · exact ⟨d, List.mem_append_right _ List.mem_cons_self, said⟩
  | @taken k before after present known like first =>
    have same := (identity_eq_some.mp known).1.trans (identity_eq_some.mp like).1.symm
    have settled (said : F present a b ∨ F d a b) :
        F ((definitions p present d).run s).1 a b :=
      kept.stands present d s a b (all present (by simp)) whole same said agrees
    change Document.Says F (before ++ ((definitions p present d).run s).1 :: after) a b
    rcases said with ⟨x, member, said⟩ | said
    · rcases List.mem_append.mp member with member | member
      · exact ⟨x, List.mem_append_left _ member, said⟩
      · rcases List.mem_cons.mp member with rfl | member
        · exact ⟨_, by simp, settled (Or.inl said)⟩
        · exact ⟨x, by simp [member], said⟩
    · exact ⟨_, by simp, settled (Or.inr said)⟩

theorem fold_origin (kept : Kept p F) {d : Definition} (whole : d.Whole) {into : Document}
    (all : ∀ x ∈ into, x.Whole) (s : σ) {a : α} {b : β}
    (said : Document.Says F ((fold p d into).run s).1 a b) : into.Says F a b ∨ F d a b := by
  rw [fold_eq_place] at said
  have found := finds_place identity (definitions p) d into
  generalize place identity (definitions p) d into = placed at found said
  obtain ⟨x, member, said⟩ := said
  cases found with
  | last fresh =>
    change x ∈ into ++ [d] at member
    rcases List.mem_append.mp member with member | member
    · exact Or.inl ⟨x, member, said⟩
    · rw [List.mem_singleton.mp member] at said
      exact Or.inr said
  | @taken k before after present known like first =>
    have same := (identity_eq_some.mp known).1.trans (identity_eq_some.mp like).1.symm
    change x ∈ before ++ ((definitions p present d).run s).1 :: after at member
    rcases List.mem_append.mp member with member | member
    · exact Or.inl ⟨x, List.mem_append_left _ member, said⟩
    · rcases List.mem_cons.mp member with rfl | member
      · exact (kept.origin present d s a b (all present (by simp)) whole same said).imp_left
          fun own => ⟨present, by simp, own⟩
      · exact Or.inl ⟨x, by simp [member], said⟩

theorem fold_whole {d : Definition} (whole : d.Whole) {into : Document}
    (all : ∀ x ∈ into, x.Whole) (s : σ) : ∀ x ∈ ((fold p d into).run s).1, x.Whole := by
  rw [fold_eq_place]
  exact forall_place all whole (fun x y k s _ _ left right => definitions_whole left right s) s

theorem foldAll_whole {later into : Document} (whole : ∀ x ∈ later, x.Whole)
    (all : ∀ x ∈ into, x.Whole) (s : σ) : ∀ x ∈ ((foldAll p into later).run s).1, x.Whole := by
  rw [foldAll_eq_placeAll]
  exact forall_placeAll all whole
    (fun x y k s _ _ left right => definitions_whole left right s) s

theorem foldAll_stands (kept : Kept p F) {later into : Document} (whole : ∀ x ∈ later, x.Whole)
    (all : ∀ x ∈ into, x.Whole) (s : σ) {a : α} {b : β}
    (said : into.Says F a b ∨ later.Says F a b) (agrees : ∀ b', later.Says F a b' → b' = b) :
    Document.Says F ((foldAll p into later).run s).1 a b := by
  induction later generalizing into s with
  | nil =>
    rcases said with said | ⟨x, member, _⟩
    · exact said
    · simp at member
  | cons d rest ih =>
    have d_whole := whole d List.mem_cons_self
    have rest_whole := fun x member => whole x (List.mem_cons_of_mem _ member)
    have d_agrees : ∀ b', F d a b' → b' = b := fun b' own =>
      agrees b' ⟨d, List.mem_cons_self, own⟩
    have rest_agrees : ∀ b', Document.Says F rest a b' → b' = b := fun b' ⟨x, member, own⟩ =>
      agrees b' ⟨x, List.mem_cons_of_mem _ member, own⟩
    refine ih rest_whole (fold_whole d_whole all s) _ ?_ rest_agrees
    rcases said with said | ⟨x, member, said⟩
    · exact Or.inl (fold_stands kept d_whole all s (Or.inl said) d_agrees)
    · rcases List.mem_cons.mp member with rfl | member
      · exact Or.inl (fold_stands kept d_whole all s (Or.inr said) d_agrees)
      · exact Or.inr ⟨x, member, said⟩

theorem foldAll_origin (kept : Kept p F) {later into : Document} (whole : ∀ x ∈ later, x.Whole)
    (all : ∀ x ∈ into, x.Whole) (s : σ) {a : α} {b : β}
    (said : Document.Says F ((foldAll p into later).run s).1 a b) :
    into.Says F a b ∨ later.Says F a b := by
  induction later generalizing into s with
  | nil => exact Or.inl said
  | cons d rest ih =>
    have d_whole := whole d List.mem_cons_self
    rcases ih (fun x member => whole x (List.mem_cons_of_mem _ member))
      (fold_whole d_whole all s) _ said with first | ⟨x, member, said⟩
    · rcases fold_origin kept d_whole all s first with before | own
      · exact Or.inl before
      · exact Or.inr ⟨d, List.mem_cons_self, own⟩
    · exact Or.inr ⟨x, List.mem_cons_of_mem _ member, said⟩

theorem whole_asDefinitions (d : Document) : ∀ x ∈ d.map Definition.asDefinition, x.Whole := by
  intro x member
  obtain ⟨y, _, rfl⟩ := List.mem_map.mp member
  exact y.whole_asDefinition

theorem consolidate_whole (d : Document) (s : σ) : ∀ x ∈ ((d.consolidate p).run s).1, x.Whole :=
  foldAll_whole (whole_asDefinitions d) (by simp) s

/-- Facts that do not depend on whether a definition is an extension. -/
def Blind (F : Definition → α → β → Prop) : Prop := ∀ d a b, F d.asDefinition a b ↔ F d a b

theorem says_asDefinitions (blind : Blind F) {d : Document} {a : α} {b : β} :
    Document.Says F (d.map Definition.asDefinition) a b ↔ d.Says F a b := by
  constructor
  · rintro ⟨x, member, said⟩
    obtain ⟨y, stands, rfl⟩ := List.mem_map.mp member
    exact ⟨y, stands, (blind y a b).mp said⟩
  · rintro ⟨y, member, said⟩
    exact ⟨_, List.mem_map_of_mem member, (blind y a b).mpr said⟩

theorem consolidate_stands (kept : Kept p F) (blind : Blind F) {d : Document} (s : σ) {a : α}
    {b : β} (said : d.Says F a b) (agrees : ∀ b', d.Says F a b' → b' = b) :
    Document.Says F ((d.consolidate p).run s).1 a b := by
  apply foldAll_stands kept (whole_asDefinitions d) (by simp) s
  · exact Or.inr ((says_asDefinitions blind).mpr said)
  · exact fun b' other => agrees b' ((says_asDefinitions blind).mp other)

theorem consolidate_origin (kept : Kept p F) (blind : Blind F) {d : Document} (s : σ) {a : α}
    {b : β} (said : Document.Says F ((d.consolidate p).run s).1 a b) : d.Says F a b := by
  rcases foldAll_origin kept (whole_asDefinitions d) (by simp) s said with ⟨x, member, _⟩ | own
  · simp at member
  · exact (says_asDefinitions blind).mp own

theorem merge_run (left right : Document) (s : σ) :
    ((left.merge p right).run s).1 =
      ((foldAll p ((left.consolidate p).run s).1
        ((right.consolidate p).run ((left.consolidate p).run s).2).1).run
        ((right.consolidate p).run ((left.consolidate p).run s).2).2).1 := rfl

/-- What the right document says, in one voice, a merge says. -/
theorem merge_stands_right (kept : Kept p F) (blind : Blind F) {left right : Document} (s : σ)
    {a : α} {b : β} (said : right.Says F a b) (agrees : ∀ b', right.Says F a b' → b' = b) :
    Document.Says F ((left.merge p right).run s).1 a b :=
  foldAll_stands kept (consolidate_whole right _) (consolidate_whole left s) _
    (Or.inr (consolidate_stands kept blind _ said agrees))
    fun b' other => agrees b' (consolidate_origin kept blind _ other)

/-- What the left document says, in one voice, a merge says if the right one is silent. -/
theorem merge_stands_left (kept : Kept p F) (blind : Blind F) {left right : Document} (s : σ)
    {a : α} {b : β} (said : left.Says F a b) (agrees : ∀ b', left.Says F a b' → b' = b)
    (silent : ∀ b', ¬ right.Says F a b') :
    Document.Says F ((left.merge p right).run s).1 a b :=
  foldAll_stands kept (consolidate_whole right _) (consolidate_whole left s) _
    (Or.inl (consolidate_stands kept blind s said agrees))
    fun b' other => absurd (consolidate_origin kept blind _ other) (silent b')

/-- What a merge says, one of the two documents says. -/
theorem merge_origin (kept : Kept p F) (blind : Blind F) {left right : Document} (s : σ) {a : α}
    {b : β} (said : Document.Says F ((left.merge p right).run s).1 a b) :
    left.Says F a b ∨ right.Says F a b :=
  (foldAll_origin kept (consolidate_whole right _) (consolidate_whole left s) _ said).imp
    (consolidate_origin kept blind s) (consolidate_origin kept blind _)

end Merge
end SchemaStitch
