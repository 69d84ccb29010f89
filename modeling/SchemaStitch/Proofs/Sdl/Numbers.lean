import Mathlib.Data.List.TakeWhile
import SchemaStitch.Proofs.Sdl.Scanning

/-! Numbers as lexemes. What is read as a number is a sign, a whole part, a fraction and a power, and
its text spells the same number wherever a number can end after it. -/
namespace SchemaStitch.Sdl.Token

def splitSign (cs : List Char) : List Char × List Char :=
  match cs with
  | '-' :: rest => (['-'], rest)
  | _ => ([], cs)

def splitPoint (cs : List Char) : Option (List Char) × List Char :=
  match cs with
  | '.' :: rest => (some (rest.takeWhile Char.isDigit), rest.dropWhile Char.isDigit)
  | _ => (none, cs)

def splitPower (cs : List Char) : Option (List Char × List Char) × List Char :=
  match cs with
  | e :: s :: rest =>
    if (e == 'e' || e == 'E') && (s == '+' || s == '-') then
      (some ([e, s], rest.takeWhile Char.isDigit), rest.dropWhile Char.isDigit)
    else if e == 'e' || e == 'E' then
      (some ([e], (s :: rest).takeWhile Char.isDigit), (s :: rest).dropWhile Char.isDigit)
    else (none, cs)
  | [e] => if e == 'e' || e == 'E' then (some ([e], []), []) else (none, cs)
  | [] => (none, cs)

/-- Whether characters go on after a number in a way that is refused. -/
def goesOn : List Char → Bool
  | c :: _ => isNameStart c || c == '.'
  | [] => false

/-- The parts of the text of a number; the mark of a power comes with its sign. -/
structure NumberParts where
  sign : List Char
  whole : List Char
  point : Option (List Char)
  power : Option (List Char × List Char)

namespace NumberParts

def pointChars (n : NumberParts) : List Char :=
  match n.point with
  | some d => '.' :: d
  | none => []

def powerChars (n : NumberParts) : List Char :=
  match n.power with
  | some (m, d) => m ++ d
  | none => []

def chars (n : NumberParts) : List Char := n.sign ++ n.whole ++ n.pointChars ++ n.powerChars

/-- The number that the parts make, with what follows it. -/
def answer (n : NumberParts) (rest : List Char) : Option (Token × List Char) :=
  if n.point.isSome || n.power.isSome then some (.float (String.ofList n.chars), rest)
  else some (.int (String.ofList n.chars), rest)

/-- Whether characters are digits, at least one. -/
def Digits (cs : List Char) : Prop := cs ≠ [] ∧ ∀ c ∈ cs, c.isDigit = true

/-- Whether characters mark a power. -/
def Mark (cs : List Char) : Prop :=
  ∃ e, (e = 'e' ∨ e = 'E') ∧ (cs = [e] ∨ ∃ s, (s = '+' ∨ s = '-') ∧ cs = [e, s])

/-- Whether the parts are those of a number. -/
structure Fits (n : NumberParts) : Prop where
  sign : n.sign = [] ∨ n.sign = ['-']
  whole : Digits n.whole
  unpadded : (n.whole.length > 1 && n.whole.head? == some '0') = false
  point : ∀ d, n.point = some d → Digits d
  power : ∀ m d, n.power = some (m, d) → Mark m ∧ Digits d

end NumberParts

open NumberParts

theorem number?_eq (cs : List Char) : number? cs =
    let signed := splitSign cs
    let whole := signed.2.takeWhile Char.isDigit
    let pointed := splitPoint (signed.2.dropWhile Char.isDigit)
    let powered := splitPower pointed.2
    if whole.isEmpty || (whole.length > 1 && whole.head? == some '0') then none
    else if pointed.1 == some [] then none
    else if (powered.1.map (·.2)) == some [] then none
    else if goesOn powered.2 then none
    else NumberParts.answer ⟨signed.1, whole, pointed.1, powered.1⟩ powered.2 := rfl

theorem digits_takeWhile {cs : List Char} (full : cs.takeWhile Char.isDigit ≠ []) :
    Digits (cs.takeWhile Char.isDigit) := ⟨full, fun _ => List.mem_takeWhile_imp⟩

/-- A run of characters of one class ends before a character of another class. -/
theorem span_stops {p : Char → Bool} {run rest : List Char} (all : ∀ c ∈ run, p c = true)
    (stops : ∀ c ∈ rest.head?, p c = false) :
    (run ++ rest).takeWhile p = run ∧ (run ++ rest).dropWhile p = rest := by
  rw [List.takeWhile_append_of_pos all, List.dropWhile_append_of_pos all]
  cases rest with
  | nil => simp
  | cons c rest =>
    have other := stops c (by simp)
    simp [List.takeWhile, List.dropWhile, other]

theorem splitSign_fits (cs : List Char) : (splitSign cs).1 = [] ∨ (splitSign cs).1 = ['-'] := by
  rw [splitSign.eq_def]
  split
  · exact Or.inr rfl
  · exact Or.inl rfl

theorem splitPoint_fits {cs d : List Char} (found : (splitPoint cs).1 = some d) (full : d ≠ []) :
    Digits d := by
  rw [splitPoint.eq_def] at found
  split at found
  · cases found
    exact digits_takeWhile full
  · cases found

theorem splitPower_fits {cs m d : List Char} (found : (splitPower cs).1 = some (m, d))
    (full : d ≠ []) : Mark m ∧ Digits d := by
  rw [splitPower.eq_def] at found
  split at found
  · rename_i e s rest
    split at found
    · rename_i signed
      cases found
      simp only [Bool.and_eq_true, Bool.or_eq_true, beq_iff_eq] at signed
      exact ⟨⟨e, signed.1, Or.inr ⟨s, signed.2, rfl⟩⟩, digits_takeWhile full⟩
    · split at found
      · rename_i plain
        cases found
        simp only [Bool.or_eq_true, beq_iff_eq] at plain
        exact ⟨⟨e, plain, Or.inl rfl⟩, digits_takeWhile full⟩
      · cases found
  · split at found
    · cases found
      exact absurd rfl full
    · cases found
  · cases found

/-- What is read as a number is one by its parts. -/
theorem parts_of_number? {cs rest : List Char} {t : Token} (found : number? cs = some (t, rest)) :
    ∃ n : NumberParts, n.Fits ∧ n.answer rest = some (t, rest) := by
  rw [number?_eq] at found
  extract_lets signed whole pointed powered at found
  split at found
  · cases found
  rename_i whole_fits
  split at found
  · cases found
  rename_i point_fits
  split at found
  · cases found
  rename_i power_fits
  split at found
  · cases found
  have same : powered.2 = rest := by
    rw [NumberParts.answer] at found
    split at found <;> exact congrArg Prod.snd (Option.some.inj found)
  rw [same] at found
  simp only [Bool.or_eq_true, not_or, List.isEmpty_iff, Bool.not_eq_true] at whole_fits
  refine ⟨⟨signed.1, whole, pointed.1, powered.1⟩, ⟨splitSign_fits cs, ?_, whole_fits.2, ?_, ?_⟩,
    found⟩
  · exact digits_takeWhile whole_fits.1
  · intro d is_point
    refine splitPoint_fits is_point fun empty => ?_
    dsimp only at is_point
    rw [is_point, empty] at point_fits
    exact point_fits rfl
  · intro m d is_power
    refine splitPower_fits is_power fun empty => ?_
    dsimp only at is_power
    rw [is_power, empty] at power_fits
    exact power_fits rfl

theorem not_digit_of_free {rest : List Char} (free : Free rest) :
    ∀ c ∈ rest.head?, c.isDigit = false := by
  intro c member
  have ends := free c member
  simp only [endsBefore, isNamePart, Char.isAlphanum, Bool.not_eq_true', Bool.or_eq_false_iff]
    at ends
  exact ends.1.1.1.2

theorem not_start_of_digit {c : Char} (digit : c.isDigit = true) : isNameStart c = false := by
  have range := Char.isDigit_iff_toNat.mp digit
  rw [isNameStart, Bool.or_eq_false_iff, Bool.eq_false_iff, ne_eq, isAlpha_iff,
    beq_eq_false_iff_ne]
  refine ⟨by simp at range; omega, ?_⟩
  rintro rfl
  exact absurd digit (by decide)

theorem goesOn_free {rest : List Char} (free : Free rest) : goesOn rest = false := by
  cases rest with
  | nil => rfl
  | cons c rest =>
    have ends := free_cons.mp free
    simp only [endsBefore, Bool.not_eq_true', Bool.or_eq_false_iff] at ends
    simp only [goesOn, Bool.or_eq_false_iff]
    refine ⟨Bool.eq_false_iff.mpr fun start => ?_, ends.1.2⟩
    rw [isNamePart_of_start start] at ends
    cases ends.1.1

theorem splitPower_free {rest : List Char} (free : Free rest) : splitPower rest = (none, rest) := by
  cases rest with
  | nil => rfl
  | cons c rest =>
    have ends := free_cons.mp free
    have plain : c ≠ 'e' ∧ c ≠ 'E' := by
      constructor
      · rintro rfl
        exact absurd ends (by decide)
      · rintro rfl
        exact absurd ends (by decide)
    cases rest with
    | nil => simp [splitPower, plain]
    | cons d rest => simp [splitPower, plain]

theorem splitPower_mark {m d rest : List Char} (mark : Mark m) (digits : Digits d)
    (free : Free rest) : splitPower (m ++ d ++ rest) = (some (m, d), rest) := by
  obtain ⟨taken, left⟩ := span_stops digits.2 (not_digit_of_free free)
  obtain ⟨e, is_mark, rfl | ⟨s, signed, rfl⟩⟩ := mark
  · obtain ⟨full, all⟩ := digits
    cases d with
    | nil => exact absurd rfl full
    | cons first more =>
      have digit := all first List.mem_cons_self
      have unsigned : first ≠ '+' ∧ first ≠ '-' := by
        constructor
        · rintro rfl
          exact absurd digit (by decide)
        · rintro rfl
          exact absurd digit (by decide)
      rw [List.cons_append] at taken left
      simp [splitPower, is_mark, unsigned, taken, left]
  · simp [splitPower, is_mark, signed, taken, left]

namespace NumberParts

variable {n : NumberParts} {rest : List Char}

theorem Fits.splitPower (fits : n.Fits) (free : Free rest) :
    Token.splitPower (n.powerChars ++ rest) = (n.power, rest) := by
  rw [powerChars]
  cases power : n.power with
  | none => exact splitPower_free free
  | some pair =>
    obtain ⟨mark, digits⟩ := fits.power pair.1 pair.2 power
    exact splitPower_mark mark digits free

/-- Neither a power nor what ends a number starts with a digit or a point. -/
theorem Fits.after_point (fits : n.Fits) (free : Free rest) :
    ∀ c ∈ (n.powerChars ++ rest).head?, c.isDigit = false ∧ c ≠ '.' := by
  intro c member
  rw [powerChars] at member
  cases power : n.power with
  | none =>
    rw [power, List.nil_append] at member
    refine ⟨not_digit_of_free free c member, ?_⟩
    rintro rfl
    exact absurd (free _ member) (by decide)
  | some pair =>
    rw [power] at member
    obtain ⟨⟨e, is_mark, shape⟩, _⟩ := fits.power pair.1 pair.2 power
    have first : c = e := by
      rcases shape with shape | ⟨s, _, shape⟩ <;> simpa [shape, eq_comm] using member
    subst c
    rcases is_mark with rfl | rfl <;> decide

theorem Fits.splitPoint (fits : n.Fits) (free : Free rest) :
    Token.splitPoint (n.pointChars ++ (n.powerChars ++ rest)) =
      (n.point, n.powerChars ++ rest) := by
  have after := fits.after_point free
  rw [pointChars]
  cases point : n.point with
  | none =>
    generalize n.powerChars ++ rest = more at after ⊢
    cases more with
    | nil => rfl
    | cons c more =>
      have other := (after c (by simp)).2
      rw [List.nil_append, Token.splitPoint.eq_def]
      split
      · rename_i same
        cases same
        exact absurd rfl other
      · rfl
  | some d =>
    obtain ⟨taken, left⟩ := span_stops (fits.point d point).2 fun c member => (after c member).1
    simp [Token.splitPoint, taken, left]

theorem Fits.after_whole (fits : n.Fits) (free : Free rest) :
    ∀ c ∈ (n.pointChars ++ (n.powerChars ++ rest)).head?, c.isDigit = false := by
  intro c member
  rw [pointChars] at member
  cases point : n.point with
  | none =>
    rw [point, List.nil_append] at member
    exact (fits.after_point free c member).1
  | some d =>
    rw [point] at member
    obtain rfl : c = '.' := by simpa [eq_comm] using member
    decide

/-- The first character of a number is a digit or the sign. -/
theorem Fits.first (fits : n.Fits) : ∃ c cs, n.chars = c :: cs ∧ (c = '-' ∨ c.isDigit = true) := by
  obtain ⟨full, all⟩ := fits.whole
  rw [chars]
  rcases fits.sign with plain | signed
  · cases whole : n.whole with
    | nil => exact absurd whole full
    | cons c cs => exact ⟨c, _, by rw [plain]; rfl, Or.inr (all c (by simp [whole]))⟩
  · exact ⟨'-', _, by rw [signed]; rfl, Or.inl rfl⟩

theorem Fits.splitSign (fits : n.Fits) (more : List Char) :
    Token.splitSign (n.sign ++ (n.whole ++ more)) = (n.sign, n.whole ++ more) := by
  obtain ⟨full, all⟩ := fits.whole
  rcases fits.sign with plain | signed
  · cases whole : n.whole with
    | nil => exact absurd whole full
    | cons c cs =>
      have digit := all c (by simp [whole])
      rw [plain, List.nil_append, List.cons_append, Token.splitSign.eq_def]
      split
      · rename_i same
        cases same
        exact absurd digit (by decide)
      · rfl
  · rw [signed]
    rfl

/-- The characters of a number are read as the number where it can end. -/
theorem Fits.number? (fits : n.Fits) (free : Free rest) :
    Token.number? (n.chars ++ rest) = n.answer rest := by
  have spelled : n.chars ++ rest = n.sign ++ (n.whole ++ (n.pointChars ++ (n.powerChars ++ rest))) := by
    simp only [chars, List.append_assoc]
  obtain ⟨taken, left⟩ := span_stops fits.whole.2 (fits.after_whole free)
  have full : n.whole.isEmpty = false := by simpa using fits.whole.1
  have point_full : (n.point == some []) = false := by
    rw [beq_eq_false_iff_ne]
    exact fun empty => (fits.point [] empty).1 rfl
  have power_full : (n.power.map (·.2) == some []) = false := by
    rw [beq_eq_false_iff_ne]
    intro empty
    obtain ⟨⟨m, d⟩, found, rfl⟩ := Option.map_eq_some_iff.mp empty
    exact (fits.power m [] found).2.1 rfl
  rw [number?_eq, spelled, fits.splitSign]
  dsimp only
  rw [taken, left, fits.splitPoint free]
  dsimp only
  rw [fits.splitPower free]
  dsimp only
  rw [full, fits.unpadded, point_full, power_full, goesOn_free free]
  rfl

end NumberParts

/-- The text of a number that was read spells that number. -/
theorem spells_number {cs rest : List Char} {t : Token} (found : number? cs = some (t, rest)) :
    ∃ text, (t = .int text ∨ t = .float text) ∧ Spells text [t] := by
  obtain ⟨n, fits, answer⟩ := parts_of_number? found
  have shape : (t = .int (String.ofList n.chars) ∨ t = .float (String.ofList n.chars)) ∧
      ∀ rest, n.answer rest = some (t, rest) := by
    simp only [NumberParts.answer] at answer ⊢
    split at answer <;> cases answer
    · rename_i fraction
      exact ⟨Or.inr rfl, fun rest => if_pos fraction⟩
    · rename_i whole
      exact ⟨Or.inl rfl, fun rest => if_neg whole⟩
  refine ⟨String.ofList n.chars, shape.1, fun rest us free scans => ?_⟩
  have read := (fits.number? free).trans (shape.2 rest)
  obtain ⟨c, more, chars, first⟩ := fits.first
  rw [String.toList_ofList]
  rw [chars] at read ⊢
  have plain : isIgnored c = false ∧ c ≠ '#' ∧ c ≠ '"' ∧ c ≠ '.' ∧ isPunctuator c = false ∧
      isNameStart c = false := by
    rcases first with rfl | digit
    · decide
    · have part : isNamePart c = true := by simp [isNamePart, Char.isAlphanum, digit]
      obtain ⟨plain, uncommented, quote, dot, unmarked⟩ := chars_of_namePart part
      exact ⟨plain, uncommented, quote, dot, unmarked, not_start_of_digit digit⟩
  obtain ⟨plain, uncommented, quote, dot, unmarked, unnamed⟩ := plain
  refine .token plain uncommented ?_ (by simp) scans
  rw [next?_plain quote dot, if_neg (by simp [unmarked]), if_neg (by simp [unnamed]),
    if_pos (by simpa using first)]
  exact read

end SchemaStitch.Sdl.Token
