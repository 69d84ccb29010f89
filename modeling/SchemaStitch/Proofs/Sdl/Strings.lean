import Mathlib.Tactic.SplitIfs
import SchemaStitch.Proofs.Sdl.Scanning
import SchemaStitch.Sdl.Printer

/-! Strings as lexemes. What is printed for a text in quotes or as a block string is read as that
text. -/
namespace SchemaStitch.Sdl

open Token

namespace Text

/-- A character is read from what is printed for it inside quotes. -/
theorem quotedTail_stringChar (acc : List Char) (c : Char) (more : List Char) :
    quotedTail acc ((stringChar c).toList ++ more) = quotedTail (c :: acc) more := by
  have raw (slash : c ≠ '\\') (quote : c ≠ '"') (feed : c ≠ '\n') (back : c ≠ '\r') :
      quotedTail acc (c.toString.toList ++ more) = quotedTail (c :: acc) more := by
    have chars : c.toString.toList = [c] := by simp
    rw [chars, List.singleton_append, quotedTail.eq_def]
    simp [slash, isLineEnd, feed, back]
  have numbered (n : Nat) : c.toNat = n → c = Char.ofNat n := by
    rintro rfl
    exact (Char.ofNat_toNat c).symm
  rw [stringChar]
  split
  · rename_i same
    obtain rfl := beq_iff_eq.mp same
    simp [quotedTail, simpleEscape?]
  rename_i quote
  split
  · rename_i same
    obtain rfl := beq_iff_eq.mp same
    simp [quotedTail, simpleEscape?]
  rename_i slash
  split
  · rename_i same
    obtain rfl := numbered _ (beq_iff_eq.mp same)
    simp [quotedTail, simpleEscape?]
  split
  · rename_i same
    obtain rfl := beq_iff_eq.mp same
    simp [quotedTail, simpleEscape?]
  rename_i feed
  split
  · rename_i same
    obtain rfl := numbered _ (beq_iff_eq.mp same)
    simp [quotedTail, simpleEscape?]
  split
  · rename_i same
    obtain rfl := beq_iff_eq.mp same
    simp [quotedTail, simpleEscape?]
  rename_i back
  simp only [beq_iff_eq] at quote slash feed back
  split
  · exact raw slash quote feed back
  split
  · rename_i control
    have escape : ∀ n < 0x20, escapedChar? '0' '0' (Nat.digitChar (n / 16)).toUpper
        (Nat.digitChar (n % 16)).toUpper = some (Char.ofNat n) := by decide
    have read := escape c.toNat control
    rw [Char.ofNat_toNat] at read
    simp [quotedTail, read]
  · exact raw slash quote feed back

theorem quotedTail_chars (acc cs rest : List Char) :
    quotedTail acc (cs.flatMap (fun c => (stringChar c).toList) ++ '"' :: rest) =
      some (String.ofList (acc.reverse ++ cs), rest) := by
  induction cs generalizing acc with
  | nil => simp [quotedTail]
  | cons c cs ih =>
    rw [List.flatMap_cons, List.append_assoc, quotedTail_stringChar, ih]
    simp

/-- A quote that does not open a block string opens a quoted one. -/
theorem next?_quote {more : List Char} (single : ∀ rest, more ≠ '"' :: '"' :: rest) :
    next? ('"' :: more) = (quotedTail [] more).map fun (s, rest) => (.string s, rest) := by
  rw [next?.eq_def]
  split
  · rename_i rest same
    exact absurd (List.cons.inj same).2 (single rest)
  · rename_i rest _ same
    rw [(List.cons.inj same).2]
  · rename_i same
    exact absurd (List.cons.inj same).1 (by decide)
  · rename_i same
    cases same
  · rename_i other _ same
    exact absurd (List.cons.inj same).1.symm other

/-- Nothing that is printed inside quotes starts with a quote. -/
theorem stringChar_first (c : Char) : ∃ d ds, (stringChar c).toList = d :: ds ∧ d ≠ '"' := by
  rw [stringChar]
  split
  · exact ⟨_, _, rfl, by decide⟩
  rename_i quote
  split
  · exact ⟨_, _, rfl, by decide⟩
  split
  · exact ⟨_, _, rfl, by decide⟩
  split
  · exact ⟨_, _, rfl, by decide⟩
  split
  · exact ⟨_, _, rfl, by decide⟩
  split
  · exact ⟨_, _, rfl, by decide⟩
  have raw : ∃ d ds, c.toString.toList = d :: ds ∧ d ≠ '"' :=
    ⟨c, [], by simp, by simpa using quote⟩
  split
  · exact raw
  split
  · exact ⟨'\\', _, by rw [String.toList_append]; rfl, by decide⟩
  · exact raw

/-- A quoted string spells the text that it is printed for. -/
theorem spells_quotedString (s : String) : Spells (quotedString s) [.string s] := by
  intro rest us free scans
  have chars : (quotedString s).toList ++ rest =
      '"' :: (s.toList.flatMap (fun c => (stringChar c).toList) ++ '"' :: rest) := by
    simp [quotedString, String.toList_join, List.flatMap_map]
  rw [chars]
  refine .token (by decide) (by decide) ?_ (by simp; omega) scans
  have tail := quotedTail_chars [] s.toList rest
  rw [List.reverse_nil, List.nil_append, String.ofList_toList] at tail
  rw [next?_quote, tail]
  · rfl
  · -- The text is empty or starts with something other than a quote, and no quote follows it.
    intro more same
    cases text : s.toList with
    | nil =>
      rw [text] at same
      obtain ⟨d, rfl⟩ : ∃ d, rest = '"' :: d := ⟨more, (List.cons.inj same).2⟩
      exact absurd (free_cons.mp free) (by decide)
    | cons c cs =>
      obtain ⟨d, ds, first, other⟩ := stringChar_first c
      rw [text, List.flatMap_cons, first] at same
      exact other (List.cons.inj same).1

/-! Block strings: the three quotes that close one are told apart from those of the text. -/

/-- Whether characters start with three quotes. -/
def Triple (cs : List Char) : Prop := ∃ rest, cs = '"' :: '"' :: '"' :: rest

theorem blockTail_plain {acc more : List Char} {c : Char} (quotes : ¬ Triple (c :: more))
    (escape : c = '\\' → ¬ Triple more) :
    blockTail acc (c :: more) = blockTail (c :: acc) more := by
  rw [blockTail.eq_def]
  split
  · rename_i same
    cases same
  · rename_i rest same
    obtain ⟨rfl, rfl⟩ := List.cons.inj same
    exact absurd ⟨rest, rfl⟩ (escape rfl)
  · rename_i same
    exact absurd ⟨_, same⟩ quotes
  · rename_i same
    obtain ⟨rfl, rfl⟩ := List.cons.inj same
    rfl

theorem escapeBlock_plain {c : Char} {cs : List Char} (quotes : ¬ Triple (c :: cs)) :
    escapeBlock (c :: cs) = c :: escapeBlock cs := by
  rw [escapeBlock.eq_def]
  split
  · rename_i rest same
    exact absurd ⟨rest, same⟩ quotes
  · rename_i same
    obtain ⟨rfl, rfl⟩ := List.cons.inj same
    rfl
  · rename_i same
    cases same

theorem escapeBlock_triple (cs : List Char) : escapeBlock ('"' :: '"' :: '"' :: cs) =
    '\\' :: '"' :: '"' :: '"' :: escapeBlock cs := by
  rw [escapeBlock]

/-- An escaped text starts with a quote only if the text does, and not with three. -/
theorem escaped_quote {cs rest more : List Char} {d : Char} (other : d ≠ '"')
    (same : escapeBlock cs ++ d :: more = '"' :: rest) :
    ∃ tail, cs = '"' :: tail ∧ ¬ Triple cs ∧ rest = escapeBlock tail ++ d :: more := by
  cases cs with
  | nil => exact absurd (List.cons.inj same).1 other
  | cons c tail =>
    by_cases triple : Triple (c :: tail)
    · obtain ⟨later, opens⟩ := triple
      rw [opens, escapeBlock_triple] at same
      exact absurd (List.cons.inj same).1 (by decide)
    · rw [escapeBlock_plain triple] at same
      obtain ⟨rfl, rfl⟩ := List.cons.inj same
      exact ⟨tail, rfl, triple, rfl⟩

theorem not_triple_escaped {more : List Char} {d : Char} (other : d ≠ '"') (cs : List Char) :
    ¬ Triple (escapeBlock cs ++ d :: more) := by
  rintro ⟨rest, same⟩
  obtain ⟨one, rfl, single, same⟩ := escaped_quote other same
  obtain ⟨two, rfl, _, same⟩ := escaped_quote other same.symm
  obtain ⟨three, rfl, _, _⟩ := escaped_quote other same.symm
  exact single ⟨three, rfl⟩

/-- Escaped characters are read as what they were, up to a character that is no quote. -/
theorem blockTail_escaped {d : Char} (other : d ≠ '"') (acc cs more : List Char) :
    blockTail acc (escapeBlock cs ++ d :: more) = blockTail (cs.reverse ++ acc) (d :: more) := by
  induction cs using escapeBlock.induct generalizing acc with
  | case1 rest ih =>
    rw [escapeBlock_triple]
    simp only [List.cons_append, blockTail, ih]
    simp
  | case2 c rest plain ih =>
    have single : ¬ Triple (c :: rest) := by
      rintro ⟨later, same⟩
      obtain ⟨rfl, rfl⟩ := List.cons.inj same
      exact plain later rfl rfl
    have opens : ¬ Triple (escapeBlock (c :: rest) ++ d :: more) := not_triple_escaped other _
    rw [escapeBlock_plain single, List.cons_append] at opens ⊢
    rw [blockTail_plain opens fun _ => not_triple_escaped other rest, ih]
    simp
  | case3 => rfl

theorem escapeBlock_append {c : Char} (other : c ≠ '"') (cs : List Char) :
    escapeBlock (cs ++ [c]) = escapeBlock cs ++ [c] := by
  induction cs using escapeBlock.induct with
  | case1 rest ih =>
    rw [escapeBlock_triple, List.cons_append, List.cons_append, List.cons_append,
      escapeBlock_triple, ih]
    rfl
  | case2 first rest plain ih =>
    have single : ¬ Triple (first :: rest) := by
      rintro ⟨later, same⟩
      obtain ⟨rfl, rfl⟩ := List.cons.inj same
      exact plain later rfl rfl
    have longer : ¬ Triple (first :: (rest ++ [c])) := by
      rintro ⟨later, same⟩
      match rest with
      | [] => exact other (List.cons.inj (List.cons.inj same).2).1
      | [_] => exact other (List.cons.inj (List.cons.inj (List.cons.inj same).2).2).1
      | a :: b :: more =>
        simp only [List.cons_append, List.cons.injEq] at same
        obtain ⟨rfl, rfl, rfl, _⟩ := same
        exact single ⟨more, rfl⟩
    rw [List.cons_append, escapeBlock_plain longer, ih, escapeBlock_plain single]
    rfl
  | case3 => exact escapeBlock_plain fun ⟨_, same⟩ => other (List.cons.inj same).1

/-! Lines of a text. -/

theorem splitLines_cons (cs : List Char) : ∃ line more, splitLines cs = line :: more := by
  cases cs with
  | nil => exact ⟨_, _, rfl⟩
  | cons c rest =>
    rw [splitLines]
    split
    · exact ⟨_, _, rfl⟩
    · split
      · exact ⟨_, _, rfl⟩
      · exact ⟨_, _, rfl⟩

theorem splitLines_other {c : Char} (other : c ≠ '\n') {rest line : List Char}
    {more : List (List Char)} (lines : splitLines rest = line :: more) :
    splitLines (c :: rest) = (c :: line) :: more := by
  rw [splitLines, if_neg (by simpa using other), lines]

theorem splitLines_feed (rest : List Char) : splitLines ('\n' :: rest) = [] :: splitLines rest := by
  rw [splitLines, if_pos (by simp)]

theorem splitLines_single {cs : List Char} (single : '\n' ∉ cs) : splitLines cs = [cs] := by
  induction cs with
  | nil => rfl
  | cons c rest ih =>
    simp only [List.mem_cons, not_or] at single
    exact splitLines_other (Ne.symm single.1) (ih single.2)

theorem starts_with_line {cs line : List Char} {more : List (List Char)}
    (lines : splitLines cs = line :: more) : line <+: cs := by
  induction cs generalizing line more with
  | nil =>
    cases lines
    exact List.prefix_refl _
  | cons c rest ih =>
    by_cases feed : c = '\n'
    · subst c
      rw [splitLines_feed] at lines
      cases lines
      exact List.nil_prefix
    · obtain ⟨first, later, split⟩ := splitLines_cons rest
      rw [splitLines_other feed split] at lines
      cases lines
      exact List.cons_prefix_cons.mpr ⟨rfl, ih split⟩

theorem Triple.extend {cs ds : List Char} (part : cs <+: ds) (triple : Triple cs) :
    Triple ds := by
  obtain ⟨rest, rfl⟩ := triple
  obtain ⟨more, rfl⟩ := part
  exact ⟨rest ++ more, rfl⟩

/-- Escaping works line by line. -/
theorem splitLines_escaped (cs : List Char) :
    splitLines (escapeBlock cs) = (splitLines cs).map escapeBlock := by
  induction cs using escapeBlock.induct with
  | case1 rest ih =>
    obtain ⟨line, more, lines⟩ := splitLines_cons rest
    rw [lines, List.map_cons] at ih
    rw [escapeBlock_triple]
    have quote : '"' ≠ '\n' := by decide
    rw [splitLines_other (by decide) (splitLines_other quote (splitLines_other quote
      (splitLines_other quote ih))), splitLines_other quote (splitLines_other quote
      (splitLines_other quote lines)), List.map_cons, escapeBlock_triple]
  | case2 c rest plain ih =>
    have single : ¬ Triple (c :: rest) := by
      rintro ⟨later, same⟩
      obtain ⟨rfl, rfl⟩ := List.cons.inj same
      exact plain later rfl rfl
    rw [escapeBlock_plain single]
    by_cases feed : c = '\n'
    · subst c
      rw [splitLines_feed, splitLines_feed, ih]
      rfl
    · obtain ⟨line, more, lines⟩ := splitLines_cons rest
      rw [lines, List.map_cons] at ih
      have apart : ¬ Triple (c :: line) := fun triple =>
        single (Triple.extend (List.cons_prefix_cons.mpr ⟨rfl, starts_with_line lines⟩) triple)
      rw [splitLines_other feed ih, splitLines_other feed lines, List.map_cons,
        escapeBlock_plain apart]
  | case3 => rfl

theorem intercalate_splitLines (cs : List Char) : List.intercalate ['\n'] (splitLines cs) = cs := by
  induction cs with
  | nil => rfl
  | cons c rest ih =>
    obtain ⟨line, more, lines⟩ := splitLines_cons rest
    rw [lines] at ih
    by_cases feed : c = '\n'
    · subst c
      rw [splitLines_feed, lines, List.intercalate_cons_cons, ih]
      rfl
    · rw [splitLines_other feed lines]
      cases more with
      | nil => simpa using ih
      | cons next more =>
        rw [List.intercalate_cons_cons] at ih ⊢
        simp [← ih]

theorem not_feed_of_line {cs line : List Char} (member : line ∈ splitLines cs) : '\n' ∉ line := by
  induction cs generalizing line with
  | nil =>
    rw [List.mem_singleton.mp member]
    simp
  | cons c rest ih =>
    by_cases feed : c = '\n'
    · subst c
      rw [splitLines_feed] at member
      rcases List.mem_cons.mp member with rfl | member
      · simp
      · exact ih member
    · obtain ⟨first, more, lines⟩ := splitLines_cons rest
      rw [lines] at ih
      rw [splitLines_other feed lines] at member
      rcases List.mem_cons.mp member with rfl | member
      · have free := ih List.mem_cons_self
        simp [Ne.symm feed, free]
      · exact ih (List.mem_cons_of_mem _ member)

theorem mem_of_line {cs line : List Char} (member : line ∈ splitLines cs) {c : Char}
    (stands : c ∈ line) : c ∈ cs := by
  induction cs generalizing line with
  | nil =>
    rw [List.mem_singleton.mp member] at stands
    cases stands
  | cons first rest ih =>
    by_cases feed : first = '\n'
    · subst first
      rw [splitLines_feed] at member
      rcases List.mem_cons.mp member with rfl | member
      · cases stands
      · exact List.mem_cons_of_mem _ (ih member stands)
    · obtain ⟨own, more, lines⟩ := splitLines_cons rest
      rw [lines] at ih
      rw [splitLines_other feed lines] at member
      rcases List.mem_cons.mp member with rfl | member
      · rcases List.mem_cons.mp stands with rfl | stands
        · exact List.mem_cons_self
        · exact List.mem_cons_of_mem _ (ih List.mem_cons_self stands)
      · exact List.mem_cons_of_mem _ (ih (List.mem_cons_of_mem _ member) stands)

/-! Reading the raw characters of a block string. -/

theorem lines_line {line : List Char} (plain : ∀ c ∈ line, isLineEnd c = false)
    (more : List Char) : Token.lines (line ++ '\n' :: more) = line :: Token.lines more := by
  induction line with
  | nil => rfl
  | cons c line ih =>
    have other := plain c List.mem_cons_self
    have rest := ih fun x member => plain x (List.mem_cons_of_mem _ member)
    rw [List.cons_append, Token.lines.eq_def]
    split
    · cases ‹_ = []›
    · rename_i same
      obtain ⟨rfl, _⟩ := List.cons.inj same
      exact absurd other (by decide)
    · rename_i same
      obtain ⟨rfl, rfl⟩ := List.cons.inj same
      rw [if_neg (by simp [other]), rest]

theorem lines_last {line : List Char} (plain : ∀ c ∈ line, isLineEnd c = false) :
    Token.lines line = [line] := by
  induction line with
  | nil => rfl
  | cons c line ih =>
    have other := plain c List.mem_cons_self
    have rest := ih fun x member => plain x (List.mem_cons_of_mem _ member)
    rw [Token.lines.eq_def]
    split
    · cases ‹_ = []›
    · rename_i same
      obtain ⟨rfl, _⟩ := List.cons.inj same
      exact absurd other (by decide)
    · rename_i same
      obtain ⟨rfl, rfl⟩ := List.cons.inj same
      rw [if_neg (by simp [other]), rest]

/-- Lines that are each put after a line feed are read as such, after a first line of nothing. -/
theorem lines_body {ls : List (List Char)} (plain : ∀ l ∈ ls, ∀ c ∈ l, isLineEnd c = false) :
    Token.lines (ls.flatMap fun l => '\n' :: l) = [] :: ls := by
  induction ls with
  | nil => rfl
  | cons l rest ih =>
    have own := plain l List.mem_cons_self
    have later := ih fun x member => plain x (List.mem_cons_of_mem _ member)
    rw [List.flatMap_cons]
    change Token.lines ([] ++ '\n' :: (l ++ rest.flatMap fun l => '\n' :: l)) = _
    rw [lines_line (by simp)]
    cases rest with
    | nil =>
      rw [List.flatMap_nil, List.append_nil, lines_last own]
    | cons next more =>
      have first : Token.lines (l ++ (next :: more).flatMap fun l => '\n' :: l) =
          l :: next :: more := by
        rw [List.flatMap_cons] at later ⊢
        have fed := lines_line own (next ++ more.flatMap fun l => '\n' :: l)
        rw [List.cons_append]
        rw [fed]
        change Token.lines ([] ++ '\n' :: (next ++ more.flatMap fun l => '\n' :: l)) = _ at later
        rw [lines_line (by simp)] at later
        rw [(List.cons.inj later).2]
      rw [first]

/-- Blanks that indent a line. -/
theorem indentOf?_indent {indent line : List Char} (blank : ∀ c ∈ indent, isIndent c = true) :
    indentOf? (indent ++ line) = (indentOf? line).map (indent.length + ·) := by
  simp only [indentOf?, List.dropWhile_append_of_pos blank]
  split
  · rfl
  · have shorter := (List.dropWhile_suffix (isIndent) (l := line)).length_le
    simp only [List.length_append, Option.map_some, Option.some.injEq]
    omega

/-- The least of some numbers, as the indentation common to lines is found. -/
theorem least_eq {ns : List Nat} {n : Nat} (member : n ∈ ns) (least : ∀ m ∈ ns, n ≤ m) :
    ns.foldl (fun least n => match least with | none => some n | some m => some (min m n)) none =
      some n := by
  have folded (ns : List Nat) (m : Nat) (below : n ≤ m) (least : ∀ k ∈ ns, n ≤ k)
      (reached : m = n ∨ n ∈ ns) :
      ns.foldl (fun least n => match least with | none => some n | some m => some (min m n))
        (some m) = some n := by
    induction ns generalizing m with
    | nil => simpa using reached
    | cons k rest ih =>
      have k_least := least k List.mem_cons_self
      refine ih (min m k) (by omega) (fun x later => least x (List.mem_cons_of_mem _ later)) ?_
      rcases reached with rfl | reached
      · exact Or.inl (by omega)
      · rcases List.mem_cons.mp reached with rfl | later
        · exact Or.inl (by omega)
        · exact Or.inr later
  cases ns with
  | nil => cases member
  | cons k rest =>
    refine folded rest k (least k List.mem_cons_self)
      (fun x later => least x (List.mem_cons_of_mem _ later)) ?_
    exact (List.mem_cons.mp member).imp Eq.symm id

/-! Block strings over several lines. -/

/-- The blanks at a level of indentation. -/
def indent (level : Nat) : List Char := List.replicate (2 * level) ' '

/-- A line as it stands in a block string: indented if it holds anything. -/
def padded (level : Nat) (line : List Char) : List Char :=
  if line.isEmpty then [] else indent level ++ line

theorem eq_blank_of_indent {level : Nat} {c : Char} (member : c ∈ indent level) : c = ' ' :=
  (List.mem_replicate.mp member).2

theorem escapeBlock_eq_nil {cs : List Char} : escapeBlock cs = [] ↔ cs = [] := by
  constructor
  · intro none
    cases cs with
    | nil => rfl
    | cons c rest =>
      rw [escapeBlock.eq_def] at none
      split at none <;> simp_all
  · rintro rfl
    rfl

theorem blockTail_plains {cs : List Char} (plain : ∀ c ∈ cs, c ≠ '"' ∧ c ≠ '\\')
    (acc more : List Char) : blockTail acc (cs ++ more) = blockTail (cs.reverse ++ acc) more := by
  induction cs generalizing acc with
  | nil => rfl
  | cons c cs ih =>
    obtain ⟨quote, slash⟩ := plain c List.mem_cons_self
    have quotes : ¬ Triple (c :: (cs ++ more)) := by
      rintro ⟨rest, same⟩
      exact quote (List.cons.inj same).1
    rw [List.cons_append, blockTail_plain quotes fun same => absurd same slash,
      ih fun x member => plain x (List.mem_cons_of_mem _ member)]
    simp

theorem blockTail_feed (acc cs : List Char) :
    blockTail acc ('\n' :: cs) = blockTail ('\n' :: acc) cs := by
  rw [← List.singleton_append, blockTail_plains (by simp)]
  rfl

theorem blockTail_lines (level : Nat) (acc more : List Char) (ls : List (List Char)) :
    blockTail acc ((ls.flatMap fun l => '\n' :: padded level (escapeBlock l)) ++ '\n' :: more) =
      blockTail ((ls.flatMap fun l => '\n' :: padded level l).reverse ++ acc) ('\n' :: more) := by
  induction ls generalizing acc with
  | nil => rfl
  | cons l rest ih =>
    -- What follows a line starts with a line feed, so the line is read to its end.
    obtain ⟨later, feeds⟩ : ∃ later, (rest.flatMap fun l => '\n' :: padded level (escapeBlock l)) ++
        '\n' :: more = '\n' :: later := by
      cases rest with
      | nil => exact ⟨_, rfl⟩
      | cons next rest => exact ⟨_, rfl⟩
    have line (acc : List Char) : blockTail acc (padded level (escapeBlock l) ++ '\n' :: later) =
        blockTail ((padded level l).reverse ++ acc) ('\n' :: later) := by
      rw [padded, padded]
      by_cases none : l = []
      · subst l
        rfl
      · rw [if_neg (by simpa [escapeBlock_eq_nil] using none), if_neg (by simpa using none),
          List.append_assoc, blockTail_plains, blockTail_escaped (by decide)]
        · simp
        · intro c member
          rw [eq_blank_of_indent member]
          decide
    rw [List.flatMap_cons, List.append_assoc, List.cons_append, blockTail_feed, feeds, line, ← feeds,
      ih]
    simp

theorem not_lineEnd_of_line {cs line : List Char} (unix : '\r' ∉ cs)
    (member : line ∈ splitLines cs) : ∀ c ∈ line, isLineEnd c = false := by
  intro c stands
  have feed : c ≠ '\n' := by
    rintro rfl
    exact not_feed_of_line member stands
  have back : c ≠ '\r' := by
    rintro rfl
    exact unix (mem_of_line member stands)
  simp [isLineEnd, feed, back]

/-- A text that reads back from a block string. -/
structure Blocks (cs : List Char) : Prop where
  unix : '\r' ∉ cs
  first : ∀ l ∈ (splitLines cs).head?, isBlankLine l = false
  last : ∀ l ∈ (splitLines cs).getLast?, isBlankLine l = false
  flush : ∃ l ∈ splitLines cs, ∃ c rest, l = c :: rest ∧ isIndent c = false

theorem blocks_of_fits {cs : List Char} (fits : fitsBlock cs = true) : Blocks cs := by
  simp only [fitsBlock, Bool.and_eq_true, Bool.not_eq_true', List.any_eq_true,
    List.contains_eq_mem, decide_eq_false_iff_not] at fits
  obtain ⟨⟨⟨unix, first⟩, last⟩, l, member, flush⟩ := fits
  refine ⟨unix, ?_, ?_, l, member, ?_⟩
  · intro l found
    rwa [Option.mem_def.mp found] at first
  · intro l found
    rwa [Option.mem_def.mp found] at last
  · cases l with
    | nil => cases flush
    | cons c rest => exact ⟨c, rest, rfl, by simpa [isIndent] using flush⟩

theorem dropBlankLines_of_first {ls more : List (List Char)} (some_line : ls ≠ [])
    (first : ∀ l ∈ ls.head?, isBlankLine l = false) :
    dropBlankLines (ls ++ more) = ls ++ more := by
  cases ls with
  | nil => contradiction
  | cons l rest =>
    have own : l.all isIndent = false := first l rfl
    simp [dropBlankLines, own]

/-- The lines of a text are what is kept of them with blank lines around. -/
theorem kept_lines {cs : List Char} (blocks : Blocks cs) (before after : List (List Char))
    (blank_before : ∀ l ∈ before, isBlankLine l = true)
    (blank_after : ∀ l ∈ after, isBlankLine l = true) :
    (dropBlankLines (dropBlankLines (before ++ splitLines cs ++ after)).reverse).reverse =
      splitLines cs := by
  have some_line : splitLines cs ≠ [] := by
    obtain ⟨line, more, lines⟩ := splitLines_cons cs
    simp [lines]
  have dropped (blanks more : List (List Char)) (blank : ∀ l ∈ blanks, isBlankLine l = true) :
      dropBlankLines (blanks ++ more) = dropBlankLines more :=
    List.dropWhile_append_of_pos blank
  rw [List.append_assoc, dropped _ _ blank_before, dropBlankLines_of_first some_line blocks.first,
    List.reverse_append, dropped _ _ fun l member => blank_after l (List.mem_reverse.mp member)]
  have ends : dropBlankLines ((splitLines cs).reverse ++ []) = (splitLines cs).reverse ++ [] :=
    dropBlankLines_of_first (by simpa using some_line) (by simpa using blocks.last)
  rw [List.append_nil] at ends
  rw [ends, List.reverse_reverse]

theorem indentOf?_eq_none {line : List Char} (blank : isBlankLine line = true) :
    indentOf? line = none := by
  have all : ∀ c ∈ line, isIndent c = true := List.all_eq_true.mp blank
  have rest : (line ++ []).dropWhile isIndent = [].dropWhile isIndent :=
    List.dropWhile_append_of_pos all
  rw [List.append_nil, List.dropWhile_nil] at rest
  rw [indentOf?, rest]
  rfl

theorem blank_indent (level : Nat) : isBlankLine (indent level) = true := by
  rw [isBlankLine, List.all_eq_true]
  intro c member
  rw [eq_blank_of_indent member]
  rfl

/-- The indentation that the lines of a block string share is the one that was printed. -/
theorem common_indent {cs : List Char} (blocks : Blocks cs) (level : Nat) :
    ((((splitLines cs).map (padded level)) ++ [indent level]).filterMap indentOf?).foldl
      (fun least n => match least with | none => some n | some m => some (min m n)) none =
      some (2 * level) := by
  have blank : ∀ c ∈ indent level, isIndent c = true := List.all_eq_true.mp (blank_indent level)
  have length : (indent level).length = 2 * level := by simp [indent]
  apply least_eq
  · obtain ⟨l, member, c, rest, rfl, other⟩ := blocks.flush
    refine List.mem_filterMap.mpr ⟨padded level (c :: rest),
      List.mem_append_left _ (List.mem_map_of_mem member), ?_⟩
    rw [padded, if_neg (by simp), indentOf?_indent blank, length]
    simp [indentOf?, List.dropWhile, other]
  · intro n found
    obtain ⟨line, member, own⟩ := List.mem_filterMap.mp found
    rcases List.mem_append.mp member with member | member
    · obtain ⟨l, _, rfl⟩ := List.mem_map.mp member
      rw [padded] at own
      split at own
      · cases own
      · rw [indentOf?_indent blank, length] at own
        obtain ⟨k, _, rfl⟩ := Option.map_eq_some_iff.mp own
        omega
    · rw [List.mem_singleton.mp member, indentOf?_eq_none (blank_indent level)] at own
      cases own

theorem blockValue_padded {cs : List Char} (blocks : Blocks cs) (level : Nat) :
    blockValue (((splitLines cs).flatMap fun l => '\n' :: padded level l) ++
      '\n' :: indent level) = String.ofList cs := by
  have plain : ∀ l ∈ (splitLines cs).map (padded level) ++ [indent level],
      ∀ c ∈ l, isLineEnd c = false := by
    have blanks : ∀ c ∈ indent level, isLineEnd c = false := by
      intro c member
      rw [eq_blank_of_indent member]
      rfl
    intro line member
    rcases List.mem_append.mp member with member | member
    · obtain ⟨l, stands, rfl⟩ := List.mem_map.mp member
      rw [padded]
      split
      · simp
      · intro c own
        rcases List.mem_append.mp own with own | own
        · exact blanks c own
        · exact not_lineEnd_of_line blocks.unix stands c own
    · rw [List.mem_singleton.mp member]
      exact blanks
  have body := lines_body plain
  rw [List.flatMap_append, List.flatMap_map, List.flatMap_singleton] at body
  have unpadded : ((splitLines cs).map (padded level) ++ [indent level]).map (·.drop (2 * level)) =
      splitLines cs ++ [[]] := by
    have own (l : List Char) : (padded level l).drop (2 * level) = l := by
      rw [padded]
      split
      · rename_i none
        simp [List.isEmpty_iff.mp none]
      · exact List.drop_left' (by simp [indent])
    simp [own, indent, Function.comp_def]
  have kept := kept_lines blocks [[]] [[]] (by simp [isBlankLine]) (by simp [isBlankLine])
  rw [List.singleton_append, List.cons_append] at kept
  rw [blockValue, body]
  dsimp only
  generalize found : List.foldl _ none _ = common
  obtain rfl : common = some (2 * level) := found.symm.trans (common_indent blocks level)
  simp only [unpadded, kept, intercalate_splitLines]

theorem next?_block {raw rest more : List Char} (tail : blockTail [] more = some (raw, rest)) :
    next? ('"' :: '"' :: '"' :: more) = some (.string (blockValue raw), rest) := by
  rw [next?, tail]

theorem blockTail_closed (acc rest : List Char) :
    blockTail acc ('"' :: '"' :: '"' :: rest) = some (acc.reverse, rest) := by
  rw [blockTail]

/-- Whether characters are three quotes, the raw characters of a block string for a text, and three
quotes. -/
def Quotes (chars : List Char) (s : String) : Prop :=
  ∃ body raw, chars = '"' :: '"' :: '"' :: body ∧ blockValue raw = s ∧
    ∀ rest, blockTail [] (body ++ rest) = some (raw, rest)

theorem Quotes.spells {text s : String} (quotes : Quotes text.toList s) :
    SpellsAll text [.string s] := by
  obtain ⟨body, raw, chars, value, tail⟩ := quotes
  intro rest us scans
  rw [chars, List.cons_append, List.cons_append, List.cons_append]
  refine .token (by decide) (by decide) (t := .string s) ?_ ?_ scans
  · rw [next?_block (tail rest), value]
  · simp only [List.length_append, List.length_cons]
    omega

section
variable {s : String}

/-- Lines of their own between the quotes. -/
theorem quotes_wide (blocks : Blocks s.toList) (level : Nat) :
    Quotes ("\"\"\"" ++ String.join ((splitLines (escapeBlock s.toList)).map fun l =>
      if l.isEmpty then "\n" else breakLine level ++ String.ofList l) ++ breakLine level ++
      "\"\"\"").toList s := by
  refine ⟨((splitLines s.toList).flatMap fun l => '\n' :: padded level (escapeBlock l)) ++
    '\n' :: (indent level ++ ['"', '"', '"']),
    ((splitLines s.toList).flatMap fun l => '\n' :: padded level l) ++ '\n' :: indent level,
    ?_, ?_, fun rest => ?_⟩
  · have line (l : List Char) : (if l.isEmpty then "\n" else breakLine level ++
        String.ofList l).toList = '\n' :: padded level l := by
      rw [padded]
      split
      · rfl
      · simp [breakLine, indent]
    simp only [String.toList_append, String.toList_join, List.map_map, splitLines_escaped,
      List.flatMap_map, Function.comp_def, line]
    simp [breakLine, indent]
  · rw [blockValue_padded blocks, String.ofList_toList]
  · rw [List.append_assoc, List.cons_append, blockTail_lines, blockTail_feed, List.append_assoc,
      blockTail_plains]
    · change blockTail _ ('"' :: '"' :: '"' :: rest) = _
      rw [blockTail_closed]
      simp
    · intro c member
      rw [eq_blank_of_indent member]
      decide

/-- One line, which does not end in a quote or backslash, right between the quotes. -/
theorem quotes_single (blocks : Blocks s.toList) (single : '\n' ∉ s.toList)
    (open_ended : ∀ c ∈ s.toList.getLast?, c ≠ '"' ∧ c ≠ '\\') :
    Quotes ("\"\"\"" ++ String.ofList (escapeBlock s.toList) ++ "\"\"\"").toList s := by
  refine ⟨escapeBlock s.toList ++ ['"', '"', '"'], s.toList, by simp, ?_, fun rest => ?_⟩
  · have plain : ∀ c ∈ s.toList, isLineEnd c = false := by
      intro c member
      have feed : c ≠ '\n' := fun same => single (same ▸ member)
      have back : c ≠ '\r' := fun same => blocks.unix (same ▸ member)
      simp [isLineEnd, feed, back]
    have kept := kept_lines blocks [] [] (by simp) (by simp)
    rw [splitLines_single single, List.nil_append, List.append_nil] at kept
    rw [blockValue, lines_last plain]
    simp only [List.filterMap_nil, List.foldl_nil, kept]
    simp
  · rcases List.eq_nil_or_concat s.toList with none | ⟨init, c, own⟩
    · have first := blocks.first [] (by rw [none]; rfl)
      cases first
    · obtain ⟨quote, slash⟩ := open_ended c (by simp [own])
      rw [own, List.concat_eq_append, escapeBlock_append quote, List.append_assoc,
        List.append_assoc, List.singleton_append, blockTail_escaped quote,
        ← List.singleton_append, blockTail_plains (by simp [quote, slash])]
      change blockTail _ ('"' :: '"' :: '"' :: rest) = _
      rw [blockTail_closed]
      simp

/-- A block string spells the text that it is printed for. -/
theorem spells_blockString (level : Nat) (fits : fitsBlock s.toList = true) :
    SpellsAll (blockString level s) [.string s] := by
  have blocks := blocks_of_fits fits
  rw [blockString]
  dsimp only
  split_ifs with wide
  · exact (quotes_wide blocks level).spells
  · simp only [Bool.or_eq_true, not_or, Bool.not_eq_true, List.contains_eq_mem,
      decide_eq_false_iff_not] at wide
    obtain ⟨⟨single, _⟩, closes⟩ := wide
    refine (quotes_single blocks single fun c last => ?_).spells
    rw [Option.mem_def.mp last] at closes
    simpa using closes

end

end Text
end SchemaStitch.Sdl
