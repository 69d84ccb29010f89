import SchemaStitch.Proofs.Sdl.Numbers
import SchemaStitch.Proofs.Sdl.Strings

/-! What is read off the front of a text. More text behind a lexeme changes nothing if the lexeme
can end there, so the lexemes of a text come first among those of every text that goes on from it. -/
namespace SchemaStitch.Sdl.Token

open Text

variable {cs rest more : List Char} {t : Token}

theorem span_append {p : Char → Bool} (stops : ∀ c ∈ more.head?, p c = false)
    (cs : List Char) : (cs ++ more).takeWhile p = cs.takeWhile p ∧
      (cs ++ more).dropWhile p = cs.dropWhile p ++ more := by
  induction cs with
  | nil => exact @span_stops p [] more (by simp) stops
  | cons c cs ih =>
    rw [List.cons_append, List.takeWhile_cons, List.takeWhile_cons, List.dropWhile_cons,
      List.dropWhile_cons]
    split
    · exact ⟨by rw [ih.1], ih.2⟩
    · exact ⟨rfl, rfl⟩

/-! Numbers. -/

theorem splitSign_append (full : cs ≠ []) :
    splitSign (cs ++ more) = ((splitSign cs).1, (splitSign cs).2 ++ more) := by
  cases cs with
  | nil => contradiction
  | cons c cs =>
    by_cases signed : c = '-'
    · subst c
      rfl
    · simp [splitSign, signed]

theorem splitPoint_append (free : Free more) (cs : List Char) :
    splitPoint (cs ++ more) = ((splitPoint cs).1, (splitPoint cs).2 ++ more) := by
  have plain (c : Char) (other : c ≠ '.') (cs : List Char) :
      splitPoint (c :: cs) = (none, c :: cs) := by
    simp [splitPoint, other]
  cases cs with
  | nil =>
    cases more with
    | nil => rfl
    | cons d more =>
      refine plain d ?_ more
      rintro rfl
      exact absurd (free_cons.mp free) (by decide)
  | cons c cs =>
    by_cases point : c = '.'
    · subst c
      obtain ⟨taken, left⟩ := span_append (not_digit_of_free free) cs
      simp [splitPoint, taken, left]
    · rw [List.cons_append, plain c point, plain c point, List.cons_append]

theorem splitPower_append (free : Free more)
    (digits : (splitPower cs).1.map (·.2) ≠ some []) :
    splitPower (cs ++ more) = ((splitPower cs).1, (splitPower cs).2 ++ more) := by
  have stops := not_digit_of_free free
  match cs with
  | [] => exact splitPower_free free
  | [e] =>
    have plain : (e == 'e' || e == 'E') = false := by
      rw [Bool.eq_false_iff]
      intro mark
      simp [splitPower, mark] at digits
    cases more <;> simp [splitPower, plain]
  | e :: s :: cs =>
    obtain ⟨taken, left⟩ := span_append stops cs
    obtain ⟨taken_all, left_all⟩ := span_append stops (s :: cs)
    rw [List.cons_append] at taken_all left_all
    simp only [splitPower, List.cons_append, taken, left, taken_all, left_all]
    split
    · rfl
    · split <;> rfl

theorem goesOn_append (free : Free more) (cs : List Char) : goesOn (cs ++ more) = goesOn cs := by
  cases cs with
  | nil => exact goesOn_free free
  | cons c cs => rfl

theorem NumberParts.answer_append {n : NumberParts} {after : List Char}
    (found : n.answer after = some (t, rest)) :
    n.answer (after ++ more) = some (t, rest ++ more) := by
  rw [answer] at found ⊢
  split at found
  · rename_i fraction
    cases found
    rw [if_pos fraction]
  · rename_i whole
    cases found
    rw [if_neg whole]

theorem number?_append (free : Free more) (found : number? cs = some (t, rest)) :
    number? (cs ++ more) = some (t, rest ++ more) := by
  rw [number?_eq] at found
  extract_lets signed whole pointed powered at found
  split at found
  · cases found
  rename_i whole_fits
  split at found
  · cases found
  rename_i point_fits
  split at found
  · cases found
  rename_i power_fits
  split at found
  · cases found
  rename_i ended
  have full : cs ≠ [] := by
    rintro rfl
    exact whole_fits rfl
  obtain ⟨taken, left⟩ := span_append (not_digit_of_free free) signed.2
  have pointed_more := splitPoint_append free (signed.2.dropWhile Char.isDigit)
  have powered_more : splitPower (pointed.2 ++ more) = (powered.1, powered.2 ++ more) :=
    splitPower_append free (by simpa using power_fits)
  rw [number?_eq, splitSign_append full]
  dsimp only
  rw [taken, left, pointed_more]
  dsimp only
  rw [powered_more]
  dsimp only
  rw [if_neg whole_fits, if_neg point_fits, if_neg power_fits, goesOn_append free, if_neg ended]
  exact NumberParts.answer_append found

/-! Strings. -/

theorem quotedTail_append {acc : List Char} {s : String}
    (found : quotedTail acc cs = some (s, rest)) :
    quotedTail acc (cs ++ more) = some (s, rest ++ more) := by
  fun_induction quotedTail acc cs with
  | case1 => cases found
  | case2 acc rest =>
    cases found
    rw [List.cons_append, quotedTail]
  | case3 => cases found
  | case4 acc a b c d rest x known ih =>
    simp only [List.cons_append, quotedTail, known]
    exact ih found
  | case5 => cases found
  | case6 acc c rest other x known ih =>
    have word : c ≠ 'u' := by
      rintro rfl
      cases known
    rw [List.cons_append, List.cons_append, quotedTail, known]
    · exact ih found
    · rintro a b c d rest rfl
      exact absurd rfl word
  | case7 => cases found
  | case8 acc c rest quote _ escape plain ih =>
    rw [List.cons_append, quotedTail, if_neg plain]
    · exact ih found
    · exact quote
    · rintro a b c d rest rfl
      simp at plain
    · rintro d rest rfl
      simp at plain

theorem single_append {acc : List Char} {s : String} (free : Free more)
    (found : quotedTail acc cs = some (s, rest)) (single : ∀ later, cs ≠ '"' :: '"' :: later)
    (later : List Char) : cs ++ more ≠ '"' :: '"' :: later := by
  intro same
  rcases cs with _ | ⟨c, _ | ⟨d, cs⟩⟩
  · cases found
  · obtain ⟨_, rfl⟩ := List.cons.inj same
    exact absurd (free_cons.mp free) (by decide)
  · simp only [List.cons_append, List.cons.injEq] at same
    obtain ⟨rfl, rfl, _⟩ := same
    exact single cs rfl

theorem length_of_blockTail {acc raw : List Char} (found : blockTail acc cs = some (raw, rest)) :
    3 ≤ cs.length := by
  fun_induction blockTail acc cs with
  | case1 => cases found
  | case2 acc rest ih => simp
  | case3 acc rest => simp
  | case4 acc c rest _ _ ih => exact Nat.le_succ_of_le (ih found)

theorem triple_of_append (enough : 3 ≤ cs.length) (triple : Triple (cs ++ more)) : Triple cs := by
  match cs with
  | a :: b :: c :: cs =>
    obtain ⟨rest, same⟩ := triple
    simp only [List.cons_append, List.cons.injEq] at same
    obtain ⟨rfl, rfl, rfl, _⟩ := same
    exact ⟨cs, rfl⟩

theorem blockTail_append {acc raw : List Char} (found : blockTail acc cs = some (raw, rest)) :
    blockTail acc (cs ++ more) = some (raw, rest ++ more) := by
  fun_induction blockTail acc cs with
  | case1 => cases found
  | case2 acc rest ih =>
    simp only [List.cons_append, blockTail]
    exact ih found
  | case3 acc rest =>
    cases found
    simp only [List.cons_append, blockTail]
  | case4 acc c rest unescaped open_ ih =>
    -- What is read later holds three quotes more, so none of them come from behind.
    have enough := length_of_blockTail found
    rw [List.cons_append, blockTail_plain, ih found]
    · intro triple
      have open_own : Triple (c :: rest) := triple_of_append (Nat.le_succ_of_le enough) triple
      obtain ⟨later, same⟩ := open_own
      obtain ⟨rfl, rfl⟩ := List.cons.inj same
      exact open_ _ rfl rfl
    · rintro rfl triple
      obtain ⟨later, rfl⟩ := triple_of_append enough triple
      exact unescaped _ rfl rfl

/-- A lexeme is read from the front of a text whatever follows the text, if it can end there. -/
theorem next?_append (free : Free more) (found : next? cs = some (t, rest)) :
    next? (cs ++ more) = some (t, rest ++ more) := by
  rw [next?.eq_def] at found
  split at found
  · split at found
    · cases found
    · rename_i tail
      cases found
      exact next?_block (blockTail_append tail)
  · rename_i cs open_
    obtain ⟨⟨s, after⟩, tail, same⟩ := Option.map_eq_some_iff.mp found
    cases same
    rw [List.cons_append, next?_quote, quotedTail_append tail]
    · rfl
    · exact single_append free tail open_
  · cases found
    rfl
  · cases found
  · rename_i c cs _ quote _
    have dot : c ≠ '.' := by
      rintro rfl
      simp [isPunctuator, isNameStart] at found
    rw [List.cons_append, next?_plain quote dot]
    split at found
    · rename_i own
      cases found
      rw [if_pos own]
    rename_i unmarked
    rw [if_neg unmarked]
    split at found
    · rename_i start
      cases found
      have stops : ∀ d ∈ more.head?, isNamePart d = false := by
        intro d member
        have ends := free d member
        simp only [endsBefore, Bool.not_eq_true', Bool.or_eq_false_iff] at ends
        exact ends.1.1
      obtain ⟨taken, left⟩ := span_append stops cs
      rw [if_pos start, taken, left]
    rename_i unnamed
    rw [if_neg unnamed]
    split at found
    · rename_i numeric
      rw [if_pos numeric]
      exact number?_append free found
    · cases found

/-! Texts. -/

theorem scanFrom_extends {fuel : Nat} {acc ts : List Token}
    (scanned : scanFrom fuel acc cs = some ts) : ∃ us, ts = acc.reverse ++ us := by
  induction fuel generalizing acc cs with
  | zero => cases scanned
  | succ fuel ih =>
    cases cs with
    | nil =>
      cases scanned
      exact ⟨[], (List.append_nil _).symm⟩
    | cons c cs =>
      rw [scanFrom] at scanned
      split at scanned
      · exact ih scanned
      split at scanned
      · exact ih scanned
      split at scanned
      · cases scanned
      · rename_i u later _
        obtain ⟨us, rfl⟩ := ih scanned
        exact ⟨u :: us, by simp⟩

/-- The lexemes of a text come first in every text that goes on from it where a lexeme can end. -/
theorem Scans.front {us : List Token} (scans : Scans cs us) (free : Free more) {fuel : Nat}
    {acc ts : List Token} (scanned : scanFrom fuel acc (cs ++ more) = some ts) :
    ∃ vs, ts = acc.reverse ++ us ++ vs := by
  induction scans generalizing fuel acc with
  | done =>
    obtain ⟨vs, rfl⟩ := scanFrom_extends scanned
    exact ⟨vs, by simp⟩
  | skip ignored _ ih =>
    cases fuel with
    | zero => cases scanned
    | succ fuel =>
      rw [List.cons_append, scanFrom, if_pos ignored] at scanned
      exact ih scanned
  | @token c cs rest u us plain uncommented next _ _ ih =>
    cases fuel with
    | zero => cases scanned
    | succ fuel =>
      have read := next?_append free next
      rw [List.cons_append] at read scanned
      rw [scanFrom, if_neg (by simp [plain]), if_neg (by simp [uncommented]), read] at scanned
      obtain ⟨vs, rfl⟩ := ih scanned
      exact ⟨vs, by simp⟩

end SchemaStitch.Sdl.Token
