import SchemaStitch.Proofs.Sdl.Prefix
import SchemaStitch.Proofs.Sdl.RoundTrip

/-! Documents with operations and fragments. What is printed for one of them starts with a lexeme
that starts nothing else, so a text in which one is printed reads, if at all, as a document that
holds one too, whatever is printed behind its start. -/
namespace SchemaStitch.Sdl

open Token

/-- Whether a definition is an operation or a fragment. -/
def Definition.isExecutable : Definition → Bool
  | .operation _ | .fragment _ => true
  | _ => false

/-- Lexemes that start an operation or a fragment. -/
inductive Opens : Token → Prop
  | brace : Opens (.punctuator '\x7b')
  | operation (kind : OperationKind) : Opens (.name kind.word)
  | fragment : Opens (.name "fragment")

namespace Production

theorem executable_of_opens {t : Token} (opens : Opens t) {d : Definition} {ts rest : List Token}
    (read : definition (t :: ts) = some (d, rest)) : d.isExecutable = true := by
  cases opens with
  | brace =>
    simp only [definition, description, bind_apply, Option.bind_some] at read
    simp at read
    obtain ⟨_, _, rfl⟩ := read
    rfl
  | operation kind =>
    cases kind <;>
    · simp [definition, description, OperationKind.word] at read
      obtain ⟨_, _, rfl⟩ := read
      rfl
  | fragment =>
    simp [definition, description] at read
    obtain ⟨_, _, rfl⟩ := read
    rfl

theorem definitionsFrom_keeps {fuel : Nat} {acc d : Document} {ts : List Token}
    (read : definitionsFrom fuel acc ts = some d) {x : Definition} (member : x ∈ acc) : x ∈ d := by
  induction fuel generalizing acc ts with
  | zero =>
    cases ts with
    | nil =>
      cases read
      exact List.mem_reverse.mpr member
    | cons t rest => cases read
  | succ fuel ih =>
    cases ts with
    | nil =>
      cases read
      exact List.mem_reverse.mpr member
    | cons t rest =>
      rw [definitionsFrom] at read
      · split at read
        · cases read
        · exact ih read (List.mem_cons_of_mem _ member)
      · simp

/-- Behind definitions of the type system, what starts an operation or a fragment is read as one. -/
theorem definitionsFrom_opens {before : Document} (spelled : ∀ x ∈ before, x.Spelled)
    (lasting : ∀ x ∈ before, x.Lasting) {t : Token} (opens : Opens t) {ts : List Token}
    (apart : before ≠ [] → Apart (t :: ts)) {fuel : Nat} {acc d : Document}
    (read : definitionsFrom fuel acc (before.flatMap Definition.lexemes ++ t :: ts) = some d) :
    d.any Definition.isExecutable = true := by
  induction before generalizing fuel acc with
  | nil =>
    cases fuel with
    | zero => cases read
    | succ fuel =>
      rw [List.flatMap_nil, List.nil_append, definitionsFrom] at read
      · split at read
        · cases read
        · rename_i x rest first
          have stands := definitionsFrom_keeps read (List.mem_cons_self (a := x))
          exact List.any_eq_true.mpr ⟨x, stands, executable_of_opens opens first⟩
      · simp
  | cons x before ih =>
    have later_spelled (y : Definition) (member : y ∈ before) :=
      spelled y (List.mem_cons_of_mem _ member)
    have later_lasting (y : Definition) (member : y ∈ before) :=
      lasting y (List.mem_cons_of_mem _ member)
    have x_spelled := spelled x List.mem_cons_self
    have x_lasting := lasting x List.mem_cons_self
    have after := apart (List.cons_ne_nil _ _)
    rw [List.flatMap_cons, List.append_assoc] at read
    cases fuel with
    | zero =>
      obtain ⟨u, us, starts, _⟩ := starts_definition x_spelled x_lasting
      rw [starts] at read
      cases read
    | succ fuel =>
      rw [definitionsFrom_cons x_spelled x_lasting
        (apart_lexemes later_spelled later_lasting after)] at read
      split at read
      · cases read
      · exact ih later_spelled later_lasting (fun _ => after) read

end Production

/-! What is printed for an operation or a fragment. -/

theorem free_append {text more : String} (free : Free text.toList) (later : Free more.toList) :
    Free (text ++ more).toList := by
  rw [String.toList_append]
  exact free.append later

theorem Parts.free_toList {text : String} (parts : Parts text) : Free text.toList := by
  simpa using parts.free []

theorem Token.Free.of_prefix {cs ds : List Char} (free : Free ds) (part : cs <+: ds) : Free cs := by
  obtain ⟨later, rfl⟩ := part
  intro c member
  exact free c (by rw [List.head?_append, Option.mem_def.mp member]; rfl)

theorem free_empty : Free "".toList := free_nil

theorem free_join {texts : List String} (free : ∀ t ∈ texts, Free t.toList) :
    Free (String.join texts).toList := by
  induction texts with
  | nil => exact free_empty
  | cons t rest ih =>
    rw [String.join_cons]
    have later := ih fun x member => free x (List.mem_cons_of_mem _ member)
    exact free_append (free t List.mem_cons_self) later

theorem free_directives (ds : List Directive) : Free (printDirectives ds).toList := by
  refine free_join fun t member => ?_
  obtain ⟨d, _, rfl⟩ := List.mem_map.mp member
  exact (Parts.append (by decide) _).free_toList

theorem free_lines (level : Nat) (items : List String) :
    Free (String.join (items.map fun i => breakLine (level + 1) ++ i) ++ breakLine level ++
      "\x7d").toList := by
  rw [String.append_assoc]
  refine free_append (free_join fun t member => ?_) ((parts_breakLine level).append _).free_toList
  obtain ⟨i, _, rfl⟩ := List.mem_map.mp member
  exact ((parts_breakLine _).append _).free_toList

theorem free_body (level : Nat) (items : List String) : Free (printBody level items).toList := by
  rw [printBody]
  split
  · exact free_empty
  · rw [String.append_assoc, String.append_assoc]
    exact (Parts.append (by decide) _).free_toList

/-- What is printed for an operation or a fragment is a text of the lexeme that starts it and a text
that does not go on with that lexeme. -/
structure Opened (text : String) (t : Token) : Prop where
  opens : Opens t
  starts : ∃ opener tail, text = opener ++ tail ∧ Spells opener [t] ∧ Solid opener ∧
    Free tail.toList

theorem opened_word {word : String} (opens : Opens (.name word)) (named : IsName word)
    {tail : String} (free : Free tail.toList) : Opened (word ++ tail) (.name word) :=
  ⟨opens, word, tail, rfl, named.spells, named.solid, free⟩

theorem opened_selections {ss : List Selection} (full : ss ≠ []) :
    Opened (String.ofList ((printBody 0 (Selection.printAll 1 ss)).toList.drop 1))
      (.punctuator '\x7b') := by
  cases ss with
  | nil => contradiction
  | cons s rest =>
    refine ⟨.brace, "\x7b", _, ?_, SpellsAll.spells (.punctuator rfl rfl), by decide,
      free_lines 0 (Selection.printAll 1 (s :: rest))⟩
    rw [printBody, if_neg (by simp [Selection.printAll]), ← String.toList_inj]
    simp

theorem Operation.opened_print {o : Operation} (selects : o.selections ≠ []) (shorten : Bool) :
    ∃ t, Opened (o.print shorten) t ∧ (shorten = false → t = .name o.kind.word) := by
  rw [print.eq_def]
  dsimp only
  split
  · rename_i short
    exact ⟨_, opened_selections selects, fun long => by simp [long] at short⟩
  · refine ⟨.name o.kind.word, ?_, fun _ => rfl⟩
    have named : IsName o.kind.word := by cases o.kind <;> decide
    have behind := free_append (free_directives o.directives)
      (free_body 0 (Selection.printAll 1 o.selections))
    simp only [String.append_assoc] at behind ⊢
    refine opened_word (.operation o.kind) named (free_append ?_ (free_append ?_ behind))
    · cases o.name with
      | none => exact free_empty
      | some n => exact (Parts.append (by decide) _).free_toList
    · split
      · exact free_empty
      · exact (parts_parens _ _).free_toList

theorem Fragment.opened_print (f : Fragment) : Opened f.print (.name "fragment") := by
  have tail : Free (" " ++ (f.name ++ " on " ++ f.condition ++ printDirectives f.directives ++
      printBody 0 (Selection.printAll 1 f.selections))).toList :=
    (Parts.append (by decide) _).free_toList
  have word : "fragment " = "fragment" ++ " " := by decide
  simp only [print, word]
  simpa only [String.append_assoc] using opened_word .fragment (by decide) tail

theorem Definition.opened_print {d : Definition} (executable : d.isExecutable = true)
    (spelled : d.Spelled) (first : Bool) :
    ∃ t, Opened (d.print first) t ∧
      (first = false → ∃ word, t = .name word ∧ word ≠ "implements") := by
  cases d with
  | operation o =>
    obtain ⟨t, opened, long⟩ := Operation.opened_print spelled first
    refine ⟨t, opened, fun later => ⟨_, long later, ?_⟩⟩
    cases o.kind <;> decide
  | fragment f => exact ⟨_, f.opened_print, fun _ => ⟨_, rfl, by decide⟩⟩
  | _ => cases executable

/-! Documents. -/

theorem intercalate_append_cons (separator : String) (before : List String) (text : String)
    (after : List String) : separator.intercalate (before ++ text :: after) =
      String.join (before.map (· ++ separator)) ++ text ++
        String.join (after.map (separator ++ ·)) := by
  have behind (text : String) : separator.intercalate (text :: after) =
      text ++ String.join (after.map (separator ++ ·)) := by
    induction after generalizing text with
    | nil => simp
    | cons t rest ih =>
      rw [String.intercalate_cons_cons, ih, List.map_cons, String.join_cons]
      simp only [String.append_assoc]
  induction before with
  | nil => simpa using behind text
  | cons t rest ih =>
    rw [List.map_cons, String.join_cons]
    cases rest with
    | nil =>
      rw [List.cons_append, List.nil_append, String.intercalate_cons_cons, behind]
      simp [String.append_assoc]
    | cons u rest =>
      rw [List.cons_append, List.cons_append, String.intercalate_cons_cons, ← List.cons_append, ih]
      simp only [String.append_assoc]

/-- What is trimmed off a text leaves the front of it up to something that is no blank. -/
theorem trimChars_front {cs : List Char}
    (solid : ∃ c, cs.getLast? = some c ∧ Text.isBlank c = false) (more : List Char) :
    ∃ kept, kept <+: more ∧ Text.trimChars (cs ++ more) = cs.dropWhile Text.isBlank ++ kept := by
  obtain ⟨c, last, other⟩ := solid
  obtain ⟨init, rfl⟩ := List.getLast?_eq_some_iff.mp last
  refine ⟨(more.reverse.dropWhile Text.isBlank).reverse, ?_, ?_⟩
  · rw [← List.reverse_suffix, List.reverse_reverse]
    exact List.dropWhile_suffix _
  · rw [Text.trimChars, List.append_assoc, List.singleton_append, dropWhile_append_cons other,
      dropWhile_append_cons other, List.reverse_append, List.reverse_cons, List.append_assoc,
      List.singleton_append, dropWhile_append_cons other]
    simp

/-- A document is printed as definitions of the type system, what starts the first operation or
fragment, and more. -/
theorem Document.front_print {before after : Document} {x : Definition}
    (spelled : ∀ y ∈ before, y.Spelled) (lasting : ∀ y ∈ before, y.Lasting)
    (x_spelled : x.Spelled) (executable : x.isExecutable = true) :
    ∃ t front tail, Document.print (before ++ x :: after) = front ++ tail ∧
      Spells front (before.flatMap Definition.lexemes ++ [t]) ∧ Solid front ∧ Free tail.toList ∧
      Opens t ∧ (before ≠ [] → ∀ ts, Production.Apart (t :: ts)) := by
  have printed : Document.print (before ++ x :: after) =
      "\n\n".intercalate (before.map (Definition.print false) ++
        x.print before.isEmpty :: after.map (Definition.print false)) ++ "\n" := by
    cases before with
    | nil => rfl
    | cons y rest =>
      rw [List.cons_append, Document.print, Definition.print_first (lasting y List.mem_cons_self)]
      simp
  obtain ⟨t, ⟨opens, opener, tail, own, spells, solid, free⟩, word⟩ :=
    Definition.opened_print executable x_spelled before.isEmpty
  have gap : SpellsAll "\n\n" [] := SpellsAll.ignored rfl
  have stands : SpellsAll (String.join (before.map fun y => y.print false ++ "\n\n"))
      (before.flatMap Definition.lexemes) :=
    spellsAll_join fun y member => by
      simpa using (Definition.spells_print (spelled y member) (lasting y member) false).append_all
        (by decide) gap
  refine ⟨t, String.join (before.map fun y => y.print false ++ "\n\n") ++ opener,
    tail ++ (String.join ((after.map (Definition.print false)).map ("\n\n" ++ ·)) ++ "\n"), ?_,
    stands.append_spells spells, solid.after _, ?_, opens, fun full ts => ?_⟩
  · rw [printed, intercalate_append_cons, own, List.map_map]
    simp only [String.append_assoc, Function.comp_def]
  · refine free_append free (free_append (free_join fun u member => ?_)
      (Parts.free_toList (by decide)))
    obtain ⟨v, _, rfl⟩ := List.mem_map.mp member
    exact (Parts.append (by decide) _).free_toList
  · obtain ⟨n, rfl, other⟩ := word (by simpa using full)
    exact ⟨fun c first => (by cases first), by simpa using other⟩

/-- A document of which all parts are spelled as the grammar accepts them is printed as a text that
reads, if at all, as the document or as one that holds an operation or a fragment. -/
theorem Document.parse?_print_any {d d' : Document} (spelled : ∀ x ∈ d, x.Spelled)
    (whole : ∀ x ∈ d, x.Lasting ∨ x.isExecutable = true)
    (read : parse? (Text.trim d.print) = some d') :
    d' = d ∨ d'.any Definition.isExecutable = true := by
  cases found : d.find? Definition.isExecutable with
  | none =>
    left
    have lasting (x : Definition) (member : x ∈ d) : x.Lasting :=
      (whole x member).resolve_right (List.find?_eq_none.mp found x member)
    rw [parse?_trim_print spelled lasting, Option.ite_none_left_eq_some] at read
    exact (Option.some.inj read.2).symm
  | some x =>
    right
    obtain ⟨executable, before, after, rfl, others⟩ := List.find?_eq_some_iff_append.mp found
    have before_spelled (y : Definition) (member : y ∈ before) : y.Spelled :=
      spelled y (List.mem_append_left _ member)
    have lasting (y : Definition) (member : y ∈ before) : y.Lasting :=
      (whole y (List.mem_append_left _ member)).resolve_right (by simpa using others y member)
    obtain ⟨t, front, tail, printed, spells, solid, free, opens, apart⟩ :=
      @front_print before after x before_spelled lasting (spelled x (by simp)) executable
    obtain ⟨kept, part, trimmed⟩ := trimChars_front solid tail.toList
    rw [parse?] at read
    obtain ⟨ts, scanned, read⟩ := Option.bind_eq_some_iff.mp read
    rw [scan?, printed, Text.trim, String.toList_ofList, String.toList_append, trimmed] at scanned
    have scans := spells [] [] free_nil .done
    rw [List.append_nil, List.append_nil] at scans
    obtain ⟨vs, rfl⟩ := (scans_dropWhile scans).front (free.of_prefix part) scanned
    split at read
    · cases read
    · simp only [List.reverse_nil, List.nil_append, List.append_assoc,
        List.singleton_append] at read
      exact Production.definitionsFrom_opens before_spelled lasting opens
        (fun full => apart full vs) read

end SchemaStitch.Sdl
