import SchemaStitch.Proofs.Sdl.Reading
import SchemaStitch.Text.Blank

/-! The text of a document, without blanks around it, is read as the document. -/
namespace SchemaStitch.Sdl

open Token

namespace Token

theorem not_blank_of_namePart {c : Char} (part : isNamePart c = true) :
    Text.isBlank c = false := by
  simp only [isNamePart, Char.isAlphanum, Bool.or_eq_true, isAlpha_iff, Char.isDigit_iff_toNat,
    beq_iff_eq] at part
  rcases part with range | rfl
  · simp [Text.isBlank] at range ⊢
    omega
  · decide

/-- No lexeme starts with a blank. -/
theorem not_blank_of_next? {c : Char} {cs rest : List Char} {t : Token}
    (next : next? (c :: cs) = some (t, rest)) : Text.isBlank c = false := by
  by_contra blank
  have blank : Text.isBlank c = true := by simpa using blank
  have differs (d : Char) (other : Text.isBlank d = false) : c ≠ d := by
    rintro rfl
    rw [blank] at other
    cases other
  rw [next?_plain (differs _ (by decide)) (differs _ (by decide))] at next
  have unmarked : isPunctuator c = false := by
    simp only [isPunctuator, List.contains_eq_mem, List.mem_cons, List.not_mem_nil, or_false,
      decide_eq_false_iff_not, not_or]
    refine ⟨?_, ?_, ?_, ?_, ?_, ?_, ?_, ?_, ?_, ?_, ?_, ?_, ?_⟩ <;> exact differs _ (by decide)
  have other : isNamePart c = false := by
    by_contra part
    rw [not_blank_of_namePart (by simpa using part)] at blank
    cases blank
  simp only [isNamePart, Char.isAlphanum, Bool.or_eq_false_iff] at other
  have minus : (c == '-') = false := by simpa using differs '-' (by decide)
  simp [unmarked, isNameStart, other, minus] at next

theorem scans_dropWhile {cs : List Char} {ts : List Token} (scans : Scans cs ts) :
    Scans (cs.dropWhile Text.isBlank) ts := by
  induction scans with
  | done => exact .done
  | @skip c cs ts ignored later ih =>
    rw [List.dropWhile_cons]
    split
    · exact ih
    · exact .skip ignored later
  | token plain uncommented next shorter later ih =>
    rw [List.dropWhile_cons, if_neg (by simp [not_blank_of_next? next])]
    exact .token plain uncommented next shorter later

end Token

/-- Whether a text does not end in a blank. -/
def Firm (text : String) : Prop := ∀ c ∈ text.toList.getLast?, Text.isBlank c = false

/-- Whether a text ends in something other than a blank. -/
def Solid (text : String) : Prop := ∃ c, text.toList.getLast? = some c ∧ Text.isBlank c = false

instance (text : String) : Decidable (Solid text) :=
  decidable_of_iff (text.toList.getLast?.any (!Text.isBlank ·) = true) (by
    rw [Solid]
    cases text.toList.getLast? <;> simp)

theorem dropWhile_append_cons {p : Char → Bool} {c : Char} (other : p c = false)
    (cs more : List Char) : (cs ++ c :: more).dropWhile p = cs.dropWhile p ++ c :: more := by
  rw [List.dropWhile_append]
  split
  · rename_i none
    simp [other, List.isEmpty_iff.mp none]
  · rfl

/-- What is trimmed off a text that ends in a line feed alone. -/
theorem trimChars_line {cs : List Char} (firm : ∀ c ∈ cs.getLast?, Text.isBlank c = false) :
    Text.trimChars (cs ++ ['\n']) = cs.dropWhile Text.isBlank := by
  rcases List.eq_nil_or_concat cs with rfl | ⟨init, c, rfl⟩
  · decide
  · have solid : Text.isBlank c = false := firm c (by simp)
    have feed : Text.isBlank '\n' = true := by decide
    rw [List.concat_eq_append, List.append_assoc, Text.trimChars, List.singleton_append,
      dropWhile_append_cons solid, dropWhile_append_cons solid]
    simp [feed, solid]

/-! What is printed for a definition ends in a name or a bracket. -/

theorem Firm.empty : Firm "" := by simp [Firm]

theorem Firm.append {text more : String} (firm : Firm text) (later : Firm more) :
    Firm (text ++ more) := by
  intro c last
  rw [String.toList_append, List.getLast?_append] at last
  cases ends : more.toList.getLast? with
  | none =>
    rw [ends, Option.none_or] at last
    exact firm c last
  | some d =>
    rw [ends, Option.some_or] at last
    cases last
    exact later c ends

theorem Solid.firm {text : String} (solid : Solid text) : Firm text := by
  obtain ⟨c, last, other⟩ := solid
  intro d member
  rw [last] at member
  cases member
  exact other

theorem Firm.solid {text : String} (firm : Firm text) (full : text ≠ "") : Solid text := by
  have some_char : text.toList ≠ [] := fun none => full (String.toList_eq_nil_iff.mp none)
  have last := List.getLast?_eq_some_getLast some_char
  exact ⟨_, last, firm _ last⟩

theorem Solid.after {more : String} (solid : Solid more) (text : String) :
    Solid (text ++ more) := by
  obtain ⟨c, last, other⟩ := solid
  exact ⟨c, by rw [String.toList_append, List.getLast?_append, last, Option.some_or], other⟩

theorem IsName.solid {n : Name} (named : IsName n) : Solid n := by
  obtain ⟨c, cs, chars, start, parts⟩ := named
  have last := List.getLast?_eq_some_getLast (List.cons_ne_nil c cs)
  refine ⟨_, by rw [chars, last], not_blank_of_namePart ?_⟩
  rcases List.mem_cons.mp (List.getLast_mem (List.cons_ne_nil c cs)) with same | member
  · rw [same]
    exact isNamePart_of_start start
  · exact parts _ member

theorem Solid.intercalate (separator : String) {texts : List String}
    (solid : ∀ t ∈ texts, Solid t) (full : texts ≠ []) : Solid (separator.intercalate texts) := by
  induction texts with
  | nil => contradiction
  | cons t rest ih =>
    cases rest with
    | nil => simpa using solid t List.mem_cons_self
    | cons u rest =>
      have later := ih (fun x member => solid x (List.mem_cons_of_mem _ member)) (by simp)
      rw [String.intercalate_cons_cons]
      exact later.after _

theorem Firm.join {texts : List String} (firm : ∀ t ∈ texts, Firm t) :
    Firm (String.join texts) := by
  induction texts with
  | nil => exact .empty
  | cons t rest ih =>
    rw [String.join_cons]
    exact (firm t List.mem_cons_self).append (ih fun x member => firm x (List.mem_cons_of_mem _ member))

theorem firm_arguments (args : List (Name × Literal)) : Firm (printArguments args) := by
  have shut : Solid ")" := by decide
  rw [printArguments]
  split
  · exact .empty
  rw [bracketed.eq_def]
  split
  · exact (shut.after _).firm
  split <;> exact (shut.after _).firm

theorem firm_directives {ds : List Directive} (own : ∀ d ∈ ds, d.Spelled) :
    Firm (printDirectives ds) := by
  refine Firm.join fun t member => ?_
  obtain ⟨d, stands, rfl⟩ := List.mem_map.mp member
  rw [Directive.print, ← String.append_assoc, ← String.append_assoc]
  exact ((own d stands).name.solid.after _).firm.append (firm_arguments _)

theorem firm_body (level : Nat) (items : List String) : Firm (printBody level items) := by
  have shut : Solid "\x7d" := by decide
  rw [printBody]
  split
  · exact .empty
  · exact (shut.after _).firm

theorem TypeDefinition.firm_print {t : TypeDefinition} (spelled : t.Spelled) :
    Firm t.printBare := by
  have applied := firm_directives spelled.directives
  have opens (word : String) : Firm (word ++ t.name) := (spelled.name.solid.after word).firm
  have interfaces {names : List Name} (own : ∀ n ∈ names, IsName n) :
      Firm (printInterfaces names) := by
    rw [printInterfaces]
    split
    · exact .empty
    · rename_i full
      exact ((Solid.intercalate _ (fun n member => (own n member).solid)
        (by simpa using full)).after _).firm
  have own := spelled.body
  rw [printBare.eq_def]
  dsimp only
  cases body : t.body with
  | scalar => exact (opens "scalar ").append applied
  | object is fs =>
    rw [body] at own
    exact (((opens "type ").append (interfaces own.1)).append applied).append (firm_body 0 _)
  | interface is fs =>
    rw [body] at own
    exact (((opens "interface ").append (interfaces own.1)).append applied).append (firm_body 0 _)
  | union ms =>
    rw [body] at own
    refine ((opens "union ").append applied).append ?_
    split
    · exact .empty
    · rename_i full
      exact ((Solid.intercalate _ (fun n member => (own n member).solid)
        (by simpa using full)).after _).firm
  | enum vs => exact ((opens "enum ").append applied).append (firm_body 0 _)
  | input fs => exact ((opens "input ").append applied).append (firm_body 0 _)

theorem TypeDefinition.printBare_ne (t : TypeDefinition) : t.printBare ≠ "" := by
  rw [printBare.eq_def]
  dsimp only
  split <;> simp

theorem Definition.solid_print {d : Definition} (spelled : d.Spelled) (lasting : d.Lasting)
    (first : Bool) : Solid (d.print first) := by
  cases d with
  | schema s =>
    have shut : Solid "\x7d" := by decide
    have operations : Solid (printOperations " \x7b\x7d" s.operations) := by
      rw [printOperations]
      split
      · decide
      · rename_i full
        rw [printBody, if_neg (by simpa using full)]
        exact shut.after _
    exact operations.after _
  | type t => exact ((TypeDefinition.firm_print spelled).solid t.printBare_ne).after _
  | directive d =>
    have known : ∀ n ∈ Production.locationNames, IsName n := by decide
    exact (Solid.intercalate _ (fun n member => (known n (spelled.locations n member)).solid)
      spelled.somewhere).after _
  | _ => cases lasting

theorem Document.firm_body {d : Document} (spelled : ∀ x ∈ d, x.Spelled)
    (lasting : ∀ x ∈ d, x.Lasting) : Firm d.body := by
  by_cases full : d = []
  · subst d
    exact .empty
  · refine (Solid.intercalate _ (fun t member => ?_) (by simpa using full)).firm
    obtain ⟨x, stands, rfl⟩ := List.mem_map.mp member
    exact Definition.solid_print (spelled x stands) (lasting x stands) false

/-- The text of a document of the type system, without blanks around it, reads as the document, unless
there is nothing in it or a schema in it is hollow. -/
theorem Document.parse?_trim_print {d : Document} (spelled : ∀ x ∈ d, x.Spelled)
    (lasting : ∀ x ∈ d, x.Lasting) :
    parse? (Text.trim d.print) =
      if d.isEmpty || d.any Definition.isHollow then none else some d := by
  refine parse?_of_spells spelled lasting ?_
  by_cases full : d = []
  · subst d
    rfl
  · have scans := spells_body spelled lasting [] [] free_nil .done
    rw [List.append_nil, List.append_nil] at scans
    apply scan?_of_scans
    rw [Document.print_eq lasting full, Text.trim, String.toList_ofList, String.toList_append]
    change Scans (Text.trimChars (d.body.toList ++ ['\n'])) _
    rw [trimChars_line (firm_body spelled lasting)]
    exact scans_dropWhile scans

end SchemaStitch.Sdl
