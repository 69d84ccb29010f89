import Mathlib.Tactic.Tauto
import SchemaStitch.Sdl.Document
import SchemaStitch.Sdl.Token

/-! Texts and the lexemes that they spell. A text that ends in a name or number spells its lexemes if
what follows cannot go on with them; a text that ends otherwise spells them whatever follows. -/
namespace SchemaStitch.Sdl

namespace Token

/-- How characters are read as lexemes. -/
inductive Scans : List Char → List Token → Prop
  | done : Scans [] []
  | skip {c : Char} {cs : List Char} {ts : List Token} (ignored : isIgnored c = true)
      (later : Scans cs ts) : Scans (c :: cs) ts
  | token {c : Char} {cs rest : List Char} {t : Token} {ts : List Token}
      (plain : isIgnored c = false) (uncommented : c ≠ '#') (next : next? (c :: cs) = some (t, rest))
      (shorter : rest.length ≤ cs.length) (later : Scans rest ts) : Scans (c :: cs) (t :: ts)

theorem scanFrom_of_scans {cs : List Char} {ts : List Token} (scans : Scans cs ts) {fuel : Nat}
    (enough : cs.length < fuel) (acc : List Token) :
    scanFrom fuel acc cs = some (acc.reverse ++ ts) := by
  induction scans generalizing fuel acc with
  | done =>
    obtain ⟨fuel, rfl⟩ := Nat.exists_eq_add_of_lt enough
    simp [scanFrom]
  | skip ignored later ih =>
    cases fuel with
    | zero => contradiction
    | succ fuel =>
      rw [scanFrom, if_pos ignored]
      exact ih (by simpa using enough) acc
  | @token c cs rest t ts plain uncommented next shorter later ih =>
    cases fuel with
    | zero => contradiction
    | succ fuel =>
      have enough : rest.length < fuel := by
        simp only [List.length_cons] at enough
        omega
      rw [scanFrom, if_neg (by simp [plain]), if_neg (by simp [uncommented]), next]
      simp only
      rw [ih enough, List.reverse_cons, List.append_assoc]
      rfl

theorem scan?_of_scans {text : String} {ts : List Token} (scans : Scans text.toList ts) :
    scan? text = some ts := scanFrom_of_scans scans (Nat.lt_succ_self _) []

/-- Whether a name or number that stands before a character ends there, and a string that holds
nothing does too. -/
def endsBefore (c : Char) : Bool := !(isNamePart c || c == '.' || c == '"')

/-- Characters before which a lexeme ends. -/
def Free (cs : List Char) : Prop := ∀ c ∈ cs.head?, endsBefore c = true

theorem free_nil : Free [] := by simp [Free]

theorem free_cons {c : Char} {cs : List Char} : Free (c :: cs) ↔ endsBefore c = true := by
  simp [Free]

theorem Free.append {cs rest : List Char} (free : Free cs) (later : Free rest) :
    Free (cs ++ rest) := by
  cases cs with
  | nil => exact later
  | cons c cs => exact free_cons.mpr (free_cons.mp free)

theorem isAlpha_iff {c : Char} : c.isAlpha = true ↔
    (65 ≤ c.toNat ∧ c.toNat ≤ 90) ∨ (97 ≤ c.toNat ∧ c.toNat ≤ 122) := by
  have ranges : c.isAlpha = (decide ('A'.val ≤ c.val ∧ c.val ≤ 'Z'.val) ||
      (decide ('a'.val ≤ c.val) && decide (c.val ≤ 'z'.val))) := rfl
  rw [ranges, Bool.or_eq_true, Bool.and_eq_true, decide_eq_true_eq, decide_eq_true_eq,
    decide_eq_true_eq]
  rfl

theorem isNamePart_of_start {c : Char} (start : isNameStart c = true) : isNamePart c = true := by
  simp only [isNameStart, isNamePart, Char.isAlphanum, Bool.or_eq_true] at *
  tauto

/-- What the first character of a lexeme other than a string decides. -/
theorem next?_plain {c : Char} (quote : c ≠ '"') (dot : c ≠ '.') (cs : List Char) :
    next? (c :: cs) =
      if isPunctuator c then some (.punctuator c, cs)
      else if isNameStart c then
        some (.name (String.ofList (c :: cs.takeWhile isNamePart)), cs.dropWhile isNamePart)
      else if c == '-' || c.isDigit then number? (c :: cs)
      else none := by
  rw [next?.eq_def]
  split <;> simp_all

end Token

open Token

/-- Whether a text spells lexemes wherever they can end after it. -/
def Spells (text : String) (ts : List Token) : Prop :=
  ∀ rest us, Free rest → Scans rest us → Scans (text.toList ++ rest) (ts ++ us)

/-- Whether a text spells lexemes whatever follows. -/
def SpellsAll (text : String) (ts : List Token) : Prop :=
  ∀ rest us, Scans rest us → Scans (text.toList ++ rest) (ts ++ us)

theorem SpellsAll.spells {text : String} {ts : List Token} (spells : SpellsAll text ts) :
    Spells text ts := fun rest us _ scans => spells rest us scans

/-- Whether a lexeme that stands before a text ends there, whatever follows the text. -/
def Parts (text : String) : Prop := ∃ c cs, text.toList = c :: cs ∧ endsBefore c = true

instance (text : String) : Decidable (Parts text) :=
  decidable_of_iff (text.toList.head?.any endsBefore = true) (by
    rw [Parts]
    cases text.toList <;> simp)

namespace Parts

variable {text : String}

theorem free (parts : Parts text) (rest : List Char) : Free (text.toList ++ rest) := by
  obtain ⟨c, cs, chars, ends⟩ := parts
  rw [chars]
  exact free_cons.mpr ends

theorem append (parts : Parts text) (more : String) : Parts (text ++ more) := by
  obtain ⟨c, cs, chars, ends⟩ := parts
  exact ⟨c, cs ++ more.toList, by rw [String.toList_append, chars, List.cons_append], ends⟩

end Parts

/-- A text that spells lexemes and can stand right after another lexeme. -/
structure Trails (text : String) (ts : List Token) : Prop where
  spells : Spells text ts
  free : Free text.toList

namespace Spells

variable {text more : String} {ts us : List Token}

theorem scan? (spells : Spells text ts) : Token.scan? text = some ts := by
  have scans := spells [] [] free_nil .done
  simp only [List.append_nil] at scans
  exact scan?_of_scans scans

theorem append (first : Spells text ts) (second : Trails more us) :
    Spells (text ++ more) (ts ++ us) := by
  intro rest vs later scans
  rw [String.toList_append, List.append_assoc, List.append_assoc]
  exact first _ _ (second.free.append later) (second.spells rest vs later scans)

theorem append_all (first : Spells text ts) (parts : Parts more) (second : SpellsAll more us) :
    SpellsAll (text ++ more) (ts ++ us) := by
  intro rest vs scans
  rw [String.toList_append, List.append_assoc, List.append_assoc]
  exact first _ _ (parts.free rest) (second rest vs scans)

theorem trails (spells : Spells text ts) (parts : Parts text) : Trails text ts :=
  ⟨spells, by simpa using parts.free []⟩

end Spells

namespace Trails

theorem empty : Trails "" [] := ⟨fun _ _ _ scans => scans, free_nil⟩

theorem append {text more : String} {ts us : List Token} (first : Trails text ts)
    (second : Trails more us) : Trails (text ++ more) (ts ++ us) where
  spells := first.spells.append second
  free := by
    rw [String.toList_append]
    exact first.free.append second.free

end Trails

namespace SpellsAll

variable {text more : String} {ts us : List Token}

theorem empty : SpellsAll "" [] := fun _ _ scans => scans

theorem append (first : SpellsAll text ts) (second : SpellsAll more us) :
    SpellsAll (text ++ more) (ts ++ us) := by
  intro rest vs scans
  rw [String.toList_append, List.append_assoc, List.append_assoc]
  exact first _ _ (second rest vs scans)

theorem append_spells (first : SpellsAll text ts) (second : Spells more us) :
    Spells (text ++ more) (ts ++ us) := by
  intro rest vs free scans
  rw [String.toList_append, List.append_assoc, List.append_assoc]
  exact first _ _ (second rest vs free scans)

/-- A punctuator spells itself. -/
theorem punctuator {text : String} {c : Char} (chars : text.toList = [c])
    (own : isPunctuator c = true) : SpellsAll text [.punctuator c] := by
  intro rest us scans
  have other : isIgnored c = false ∧ c ≠ '#' ∧ c ≠ '"' ∧ c ≠ '.' := by
    simp only [isPunctuator, List.contains_eq_mem, decide_eq_true_eq, List.mem_cons,
      List.not_mem_nil, or_false] at own
    rcases own with rfl | rfl | rfl | rfl | rfl | rfl | rfl | rfl | rfl | rfl | rfl | rfl | rfl <;>
      decide
  obtain ⟨plain, uncommented, quote, dot⟩ := other
  rw [chars]
  refine .token plain uncommented ?_ (Nat.le_refl _) scans
  rw [next?_plain quote dot, if_pos own]

/-- Characters that stand between lexemes spell nothing. -/
theorem ignored {text : String} (own : text.toList.all isIgnored = true) :
    SpellsAll text [] := by
  intro rest us scans
  generalize text.toList = cs at own
  induction cs with
  | nil => exact scans
  | cons c cs ih =>
    rw [List.all_cons, Bool.and_eq_true] at own
    exact .skip own.1 (ih own.2)

end SpellsAll

/-- Whether a text is a name. -/
def IsName (n : Name) : Prop :=
  ∃ c cs, n.toList = c :: cs ∧ isNameStart c = true ∧ ∀ x ∈ cs, isNamePart x = true

instance (n : Name) : Decidable (IsName n) :=
  decidable_of_iff
    ((n.toList.head?.any isNameStart && n.toList.tail.all isNamePart) = true) (by
      rw [IsName]
      cases n.toList with
      | nil => simp
      | cons c cs => simp [and_assoc])

namespace Token

theorem chars_of_namePart {c : Char} (part : isNamePart c = true) :
    isIgnored c = false ∧ c ≠ '#' ∧ c ≠ '"' ∧ c ≠ '.' ∧ isPunctuator c = false := by
  have differs (d : Char) (other : isNamePart d = false) : c ≠ d := by
    rintro rfl
    rw [part] at other
    cases other
  have wide : c.toNat ≠ 0xFEFF := by
    intro same
    have known : c = Char.ofNat 0xFEFF := by rw [← same, Char.ofNat_toNat]
    exact differs _ (by decide) known
  simp only [isIgnored, isPunctuator, List.contains_eq_mem, List.mem_cons, List.not_mem_nil,
    or_false, decide_eq_false_iff_not, not_or, Bool.or_eq_false_iff, beq_eq_false_iff_ne]
  refine ⟨⟨⟨⟨⟨⟨?_, ?_⟩, ?_⟩, ?_⟩, ?_⟩, wide⟩, ?_, ?_, ?_, ?_⟩
  all_goals first
    | exact differs _ (by decide)
    | refine ⟨?_, ?_, ?_, ?_, ?_, ?_, ?_, ?_, ?_, ?_, ?_, ?_, ?_⟩ <;> exact differs _ (by decide)

end Token

/-- A name spells itself. -/
theorem IsName.spells {n : Name} (own : IsName n) : Spells n [.name n] := by
  obtain ⟨c, cs, chars, start, parts⟩ := own
  intro rest us free scans
  obtain ⟨plain, uncommented, quote, dot, unmarked⟩ := chars_of_namePart (isNamePart_of_start start)
  have stops : rest.takeWhile isNamePart = [] ∧ rest.dropWhile isNamePart = rest := by
    cases rest with
    | nil => exact ⟨rfl, rfl⟩
    | cons d rest =>
      have ends := free_cons.mp free
      have other : isNamePart d = false := by
        simp only [endsBefore, Bool.not_eq_true', Bool.or_eq_false_iff] at ends
        exact ends.1.1
      simp [List.takeWhile, List.dropWhile, other]
  have next : next? (c :: (cs ++ rest)) = some (.name n, rest) := by
    rw [next?_plain quote dot, if_neg (by simp [unmarked]), if_pos start,
      List.takeWhile_append_of_pos parts, List.dropWhile_append_of_pos parts, stops.1, stops.2,
      List.append_nil, ← chars, String.ofList_toList]
  rw [chars]
  exact .token plain uncommented next (by simp) scans

end SchemaStitch.Sdl
