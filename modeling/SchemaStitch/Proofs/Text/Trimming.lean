import Mathlib.Data.List.DropRight
import SchemaStitch.Text.Blank

/-! Trimming. What is left of a text neither starts nor ends in a blank, and only blanks stood
around it; so nothing is left of blank texts alone, and trimming again changes nothing. -/
namespace SchemaStitch.Text

/-- Whether a text holds no character but blanks. -/
def Blank (s : String) : Prop := ∀ c ∈ s.toList, isBlank c = true

instance (s : String) : Decidable (Blank s) :=
  decidable_of_iff (s.toList.all isBlank = true) List.all_eq_true

/-- Whether a text neither starts nor ends in a blank. -/
structure Trimmed (s : String) : Prop where
  front : ∀ c ∈ s.toList.head?, isBlank c = false
  back : ∀ c ∈ s.toList.getLast?, isBlank c = false

/-- Whether a text is another one without the blanks around it. -/
structure TrimsTo (s t : String) : Prop where
  around : ∃ before after, Blank before ∧ Blank after ∧ s = before ++ t ++ after
  trimmed : Trimmed t

theorem blank_append {s t : String} : Blank (s ++ t) ↔ Blank s ∧ Blank t := by
  simp only [Blank, String.toList_append, List.forall_mem_append]

theorem trimChars_eq (cs : List Char) : trimChars cs = (cs.dropWhile isBlank).rdropWhile isBlank :=
  rfl

theorem head_dropWhile {cs : List Char} {c : Char} (first : c ∈ (cs.dropWhile isBlank).head?) :
    isBlank c = false := by
  have other := List.head?_dropWhile_not isBlank cs
  rw [Option.mem_def.mp first] at other
  simpa using other

theorem trimmed_trim (s : String) : Trimmed (trim s) := by
  rw [trim]
  constructor <;> intro c member <;> rw [String.toList_ofList, trimChars_eq] at member
  · obtain ⟨more, shape⟩ := List.rdropWhile_prefix isBlank (s.toList.dropWhile isBlank)
    have first : c ∈ (s.toList.dropWhile isBlank).head? := by
      rw [← shape, List.head?_append, Option.mem_def.mp member]
      rfl
    exact head_dropWhile first
  · have full : (s.toList.dropWhile isBlank).rdropWhile isBlank ≠ [] := by
      intro none
      rw [none] at member
      cases member
    have other := List.rdropWhile_last_not isBlank (s.toList.dropWhile isBlank) full
    rw [List.getLast?_eq_some_getLast full, Option.mem_some_iff] at member
    rw [← member]
    simpa using other

theorem trimsTo_trim (s : String) : TrimsTo s (trim s) := by
  refine ⟨⟨String.ofList (s.toList.takeWhile isBlank),
    String.ofList ((s.toList.dropWhile isBlank).rtakeWhile isBlank), ?_, ?_, ?_⟩, trimmed_trim s⟩
  · intro c member
    rw [String.toList_ofList] at member
    exact List.mem_takeWhile_imp member
  · intro c member
    rw [String.toList_ofList] at member
    exact List.mem_rtakeWhile_imp member
  · rw [← String.toList_inj, String.toList_append, String.toList_append, trim, trimChars_eq]
    simp only [String.toList_ofList, List.append_assoc]
    rw [List.rdropWhile_append_rtakeWhile, List.takeWhile_append_dropWhile]

theorem trim_of_trimmed {s : String} (trimmed : Trimmed s) : trim s = s := by
  have front : s.toList.dropWhile isBlank = s.toList := by
    cases chars : s.toList with
    | nil => rfl
    | cons c rest =>
      have other := trimmed.front c (by simp [chars])
      rw [List.dropWhile_cons, if_neg (by simp [other])]
  have back : s.toList.rdropWhile isBlank = s.toList := by
    refine List.rdropWhile_eq_self_iff.mpr fun full => ?_
    have other := trimmed.back _ (List.getLast?_eq_some_getLast full)
    simp [other]
  rw [trim, trimChars_eq, front, back, String.ofList_toList]

theorem blank_of_trimsTo {s : String} (trims : TrimsTo s "") : Blank s := by
  obtain ⟨before, after, before_blank, after_blank, rfl⟩ := trims.around
  rw [String.append_empty]
  exact blank_append.mpr ⟨before_blank, after_blank⟩

/-- Nothing is left of blank texts alone. -/
theorem trim_eq_empty_iff {s : String} : trim s = "" ↔ Blank s := by
  constructor
  · intro nothing
    exact blank_of_trimsTo (nothing ▸ trimsTo_trim s)
  · intro blank
    have front : s.toList.dropWhile isBlank = [] := List.dropWhile_eq_nil_iff.mpr blank
    rw [trim, trimChars_eq, front]
    rfl

end SchemaStitch.Text
