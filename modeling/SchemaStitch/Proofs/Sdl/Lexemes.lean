import SchemaStitch.Proofs.Sdl.Spelled
import SchemaStitch.Proofs.Sdl.Strings

/-! The lexemes of documents. Every part of a document is printed as a text that spells its lexemes, in
whatever layout. -/
namespace SchemaStitch.Sdl

open Token

/-- The lexemes of items between brackets. -/
def enclosedLexemes (opening close : Char) (items : List (List Token)) : List Token :=
  .punctuator opening :: (items.flatten ++ [.punctuator close])

/-- The lexemes of items between brackets, none if there are no items. -/
def enclosedLexemesIfAny (opening close : Char) (items : List (List Token)) : List Token :=
  if items.isEmpty then [] else enclosedLexemes opening close items

/-- The lexemes of names with a punctuator between them. -/
def separatedLexemes (separator : Char) (names : List Name) : List Token :=
  List.intercalate [.punctuator separator] (names.map fun n => [.name n])

def descriptionLexemes : Option String → List Token
  | none => []
  | some s => [.string s]

mutual

def Literal.lexemes : Literal → List Token
  | .null => [.name "null"]
  | .bool b => [.name (if b then "true" else "false")]
  | .int text => [.int text]
  | .float text => [.float text]
  | .string s => [.string s]
  | .enum n => [.name n]
  | .variable n => [.punctuator '$', .name n]
  | .list items => enclosedLexemes '[' ']' (Literal.lexemesAll items)
  | .object fields => enclosedLexemes '\x7b' '\x7d' (Literal.lexemesFields fields)

def Literal.lexemesAll : List Literal → List (List Token)
  | [] => []
  | v :: rest => v.lexemes :: Literal.lexemesAll rest

def Literal.lexemesFields : List (Name × Literal) → List (List Token)
  | [] => []
  | (k, v) :: rest => ([.name k, .punctuator ':'] ++ v.lexemes) :: Literal.lexemesFields rest

end

def TypeRef.lexemes : TypeRef → List Token
  | .named n => [.name n]
  | .list item => [.punctuator '['] ++ item.lexemes ++ [.punctuator ']']
  | .nonNull type => type.lexemes ++ [.punctuator '!']

def Directive.lexemes (d : Directive) : List Token :=
  [.punctuator '@'] ++ [.name d.name] ++ enclosedLexemesIfAny '(' ')' (Literal.lexemesFields d.arguments)

def defaultLexemes : Option Literal → List Token
  | none => []
  | some v => [.punctuator '='] ++ v.lexemes

def InputField.lexemes (f : InputField) : List Token :=
  descriptionLexemes f.description ++ [.name f.name] ++ [.punctuator ':'] ++ f.type.lexemes ++
    defaultLexemes f.default ++ f.directives.flatMap Directive.lexemes

def Field.lexemes (f : Field) : List Token :=
  descriptionLexemes f.description ++ [.name f.name] ++
    enclosedLexemesIfAny '(' ')' (f.arguments.map InputField.lexemes) ++ [.punctuator ':'] ++
    f.type.lexemes ++ f.directives.flatMap Directive.lexemes

def EnumValue.lexemes (v : EnumValue) : List Token :=
  descriptionLexemes v.description ++ [.name v.name] ++ v.directives.flatMap Directive.lexemes

def interfaceLexemes (names : List Name) : List Token :=
  if names.isEmpty then [] else [.name "implements"] ++ separatedLexemes '&' names

def memberLexemes (names : List Name) : List Token :=
  if names.isEmpty then [] else [.punctuator '='] ++ separatedLexemes '|' names

/-- The lexemes of a type without its description. -/
def TypeDefinition.lexemes (t : TypeDefinition) : List Token :=
  let directives := t.directives.flatMap Directive.lexemes
  match t.body with
  | .scalar => [.name "scalar"] ++ [.name t.name] ++ directives
  | .object interfaces fields =>
    [.name "type"] ++ [.name t.name] ++ interfaceLexemes interfaces ++ directives ++
      enclosedLexemesIfAny '\x7b' '\x7d' (fields.map Field.lexemes)
  | .interface interfaces fields =>
    [.name "interface"] ++ [.name t.name] ++ interfaceLexemes interfaces ++ directives ++
      enclosedLexemesIfAny '\x7b' '\x7d' (fields.map Field.lexemes)
  | .union members => [.name "union"] ++ [.name t.name] ++ directives ++ memberLexemes members
  | .enum values =>
    [.name "enum"] ++ [.name t.name] ++ directives ++
      enclosedLexemesIfAny '\x7b' '\x7d' (values.map EnumValue.lexemes)
  | .input fields =>
    [.name "input"] ++ [.name t.name] ++ directives ++
      enclosedLexemesIfAny '\x7b' '\x7d' (fields.map InputField.lexemes)

def operationLexemes (o : OperationKind × Name) : List Token :=
  [.name o.1.word] ++ [.punctuator ':'] ++ [.name o.2]

/-- The lexemes of a schema. The braces are always there. -/
def SchemaDefinition.lexemes (s : SchemaDefinition) : List Token :=
  descriptionLexemes s.description ++ [.name "schema"] ++ s.directives.flatMap Directive.lexemes ++
    enclosedLexemes '\x7b' '\x7d' (s.operations.map operationLexemes)

def DirectiveDefinition.lexemes (d : DirectiveDefinition) : List Token :=
  descriptionLexemes d.description ++ [.name "directive", .punctuator '@'] ++ [.name d.name] ++
    enclosedLexemesIfAny '(' ')' (d.arguments.map InputField.lexemes) ++
    (if d.repeatable then [.name "repeatable"] else []) ++ [.name "on"] ++
    separatedLexemes '|' d.locations

/-- The lexemes of a definition of a schema, a type or a directive. -/
def Definition.lexemes : Definition → List Token
  | .schema s => s.lexemes
  | .type t => descriptionLexemes t.description ++ t.lexemes
  | .directive d => d.lexemes
  | _ => []

/-! Texts of several parts. -/

theorem parts_breakLine (level : Nat) : Parts (breakLine level) := Parts.append (by decide) _

theorem spells_breakLine (level : Nat) : SpellsAll (breakLine level) [] := by
  apply SpellsAll.ignored
  simp [breakLine, isIgnored]

/-- A punctuator with blanks around it. -/
theorem spells_mark {text : String} (before after : List Char) {c : Char}
    (chars : text.toList = before ++ c :: after) (blank : (before ++ after).all isIgnored = true)
    (own : isPunctuator c = true) : SpellsAll text [.punctuator c] := by
  have parts : text = String.ofList before ++ String.singleton c ++ String.ofList after := by
    rw [← String.toList_inj, chars]
    simp
  rw [List.all_append, Bool.and_eq_true] at blank
  have opened : SpellsAll (String.ofList before) [] := .ignored (by rw [String.toList_ofList, blank.1])
  have closed : SpellsAll (String.ofList after) [] := .ignored (by rw [String.toList_ofList, blank.2])
  rw [parts]
  exact (opened.append (SpellsAll.punctuator (String.toList_singleton c) own)).append closed

theorem spells_blank : SpellsAll " " [] := SpellsAll.ignored rfl

theorem spells_spaced {text : String} {c : Char} (chars : text.toList = [' ', c, ' '])
    (own : isPunctuator c = true) : SpellsAll text [.punctuator c] :=
  spells_mark [' '] [' '] chars rfl own

/-- A word with a blank after it. -/
theorem spells_word (word : String) (named : IsName word) :
    SpellsAll (word ++ " ") [.name word] :=
  named.spells.append_all (by decide) spells_blank

theorem spells_colon : SpellsAll ": " [.punctuator ':'] :=
  spells_mark [] [' '] rfl rfl rfl

section
variable {α : Type} {text : α → String} {lexemes : α → List Token} {items : List α}

theorem spellsAll_join (own : ∀ x ∈ items, SpellsAll (text x) (lexemes x)) :
    SpellsAll (String.join (items.map text)) (items.flatMap lexemes) := by
  induction items with
  | nil => exact SpellsAll.empty
  | cons x rest ih =>
    rw [List.map_cons, String.join_cons, List.flatMap_cons]
    exact (own x List.mem_cons_self).append (ih fun y member => own y (List.mem_cons_of_mem _ member))

theorem trails_join (own : ∀ x ∈ items, Trails (text x) (lexemes x)) :
    Trails (String.join (items.map text)) (items.flatMap lexemes) := by
  induction items with
  | nil => exact Trails.empty
  | cons x rest ih =>
    rw [List.map_cons, String.join_cons, List.flatMap_cons]
    exact (own x List.mem_cons_self).append (ih fun y member => own y (List.mem_cons_of_mem _ member))

theorem spells_intercalate {separator : String} {between : List Token} (parts : Parts separator)
    (spells : SpellsAll separator between)
    (own : ∀ x ∈ items, Spells (text x) (lexemes x)) :
    Spells (separator.intercalate (items.map text))
      (List.intercalate between (items.map lexemes)) := by
  induction items with
  | nil => exact Trails.empty.spells
  | cons x rest ih =>
    have later := ih fun y member => own y (List.mem_cons_of_mem _ member)
    have first := own x List.mem_cons_self
    cases rest with
    | nil => simpa using first
    | cons y rest =>
      simp only [List.map_cons, String.intercalate_cons_cons, List.intercalate_cons_cons] at later ⊢
      exact (first.append_all parts spells).append_spells later

theorem intercalate_nil (tss : List (List Token)) : List.intercalate [] tss = tss.flatten := by
  induction tss with
  | nil => rfl
  | cons ts rest ih =>
    cases rest with
    | nil => simp
    | cons us rest =>
      rw [List.intercalate_cons_cons, ih, List.append_nil]
      rfl

/-- Items between brackets spell their lexemes between them, in either layout. -/
theorem spells_bracketed {left right : String} {opening close : Char}
    (opened : SpellsAll left [.punctuator opening]) (shut : SpellsAll right [.punctuator close])
    (parts : Parts right) (layout : Layout)
    (own : ∀ x ∈ items, Spells (text x) (lexemes x)) :
    SpellsAll (bracketed layout left right (items.map text))
      (enclosedLexemes opening close (items.map lexemes)) := by
  rw [bracketed.eq_def]
  cases items with
  | nil => exact opened.append shut
  | cons x rest =>
    rw [if_neg (by simp)]
    generalize x :: rest = items at own
    cases layout with
    | line =>
      have comma : SpellsAll ", " [] := SpellsAll.ignored rfl
      have between := spells_intercalate (by decide) comma own
      rw [intercalate_nil] at between
      simpa [enclosedLexemes] using (opened.append_spells between).append_all parts shut
    | wide level =>
      have item : ∀ x ∈ items, SpellsAll (breakLine (level + 1) ++ text x ++ ",") (lexemes x) := by
        intro x member
        have started := (spells_breakLine (level + 1)).append_spells (own x member)
        have comma : SpellsAll "," [] := SpellsAll.ignored rfl
        simpa using started.append_all (by decide) comma
      have all := ((opened.append (spellsAll_join item)).append (spells_breakLine level)).append shut
      simpa [enclosedLexemes, List.map_map, Function.comp_def, List.flatMap_def] using all

theorem spells_parens (layout : Layout) (own : ∀ x ∈ items, Spells (text x) (lexemes x)) :
    SpellsAll (bracketed layout "(" ")" (items.map text))
      (enclosedLexemes '(' ')' (items.map lexemes)) :=
  spells_bracketed (.punctuator rfl rfl) (.punctuator rfl rfl) (by decide) layout own

theorem spells_square (layout : Layout) (own : ∀ x ∈ items, Spells (text x) (lexemes x)) :
    SpellsAll (bracketed layout "[" "]" (items.map text))
      (enclosedLexemes '[' ']' (items.map lexemes)) :=
  spells_bracketed (.punctuator rfl rfl) (.punctuator rfl rfl) (by decide) layout own

theorem spells_braces (layout : Layout) (own : ∀ x ∈ items, Spells (text x) (lexemes x)) :
    SpellsAll (bracketed layout "\x7b" "\x7d" (items.map text))
      (enclosedLexemes '\x7b' '\x7d' (items.map lexemes)) :=
  spells_bracketed (.punctuator rfl rfl) (.punctuator rfl rfl) (by decide) layout own

theorem parts_parens (layout : Layout) (items : List String) :
    Parts (bracketed layout "(" ")" items) := by
  rw [bracketed.eq_def]
  split
  · exact Parts.append (by decide) _
  split
  · rw [String.append_assoc]
    exact Parts.append (by decide) _
  · rw [String.append_assoc, String.append_assoc]
    exact Parts.append (by decide) _

end

/-! Parts of definitions. -/

theorem spells_description (level : Nat) (described : Option String) :
    SpellsAll (Text.description level described) (descriptionLexemes described) := by
  cases described with
  | none => exact SpellsAll.empty
  | some s =>
    have quoted : Spells (if Text.fitsBlock s.toList then Text.blockString level s
        else Text.quotedString s) [.string s] := by
      split
      · exact (Text.spells_blockString level ‹_›).spells
      · exact Text.spells_quotedString s
    simpa [descriptionLexemes, Text.description] using
      quoted.append_all (parts_breakLine level) (spells_breakLine level)

theorem Literal.printAll_eq (layout : Layout) (items : List Literal) :
    Literal.printAll layout items = items.map (·.print layout) := by
  induction items with
  | nil => rfl
  | cons v rest ih => rw [Literal.printAll, ih, List.map_cons]

theorem Literal.printFields_eq (layout : Layout) (fields : List (Name × Literal)) :
    Literal.printFields layout fields = fields.map fun f => f.1 ++ ": " ++ f.2.print layout := by
  induction fields with
  | nil => rfl
  | cons f rest ih => rw [Literal.printFields, ih, List.map_cons]

theorem Literal.lexemesAll_eq (items : List Literal) :
    Literal.lexemesAll items = items.map Literal.lexemes := by
  induction items with
  | nil => rfl
  | cons v rest ih => rw [Literal.lexemesAll, ih, List.map_cons]

theorem Literal.lexemesFields_eq (fields : List (Name × Literal)) :
    Literal.lexemesFields fields =
      fields.map fun f => [.name f.1, .punctuator ':'] ++ f.2.lexemes := by
  induction fields with
  | nil => rfl
  | cons f rest ih => rw [Literal.lexemesFields, ih, List.map_cons]

/-- A name and a colon before something. -/
theorem spells_labelled {n : Name} (named : IsName n) {text : String} {ts : List Token}
    (own : Spells text ts) : Spells (n ++ ": " ++ text) ([.name n, .punctuator ':'] ++ ts) := by
  exact (named.spells.append_all (by decide) spells_colon).append_spells own

theorem Literal.spells_print {depth : Nat} {v : Literal} (spelled : v.Spelled depth)
    (layout : Layout) : Spells (v.print layout) v.lexemes := by
  induction spelled generalizing layout with
  | null => exact IsName.spells (n := "null") (by decide)
  | @bool _ b =>
    cases b with
    | false => exact IsName.spells (n := "false") (by decide)
    | true => exact IsName.spells (n := "true") (by decide)
  | int own => exact own
  | float own => exact own
  | @string _ s =>
    cases layout with
    | line => exact Text.spells_quotedString s
    | wide level =>
      rw [Literal.print, Text.stringLiteral.eq_def]
      dsimp only
      split
      · rename_i fits
        exact (Text.spells_blockString level (Bool.and_eq_true_iff.mp fits).2).spells
      · exact Text.spells_quotedString s
  | enum own => exact own.spells
  | list own ih =>
    rw [Literal.print, Literal.lexemes, Literal.printAll_eq, Literal.lexemesAll_eq]
    exact (spells_square layout fun v member => ih v member layout.deeper).spells
  | object names own ih =>
    rw [Literal.print, Literal.lexemes, Literal.printFields_eq, Literal.lexemesFields_eq]
    exact (spells_braces layout fun f member =>
      spells_labelled (names f member) (ih f member layout.deeper)).spells

theorem TypeRef.spells_print {depth : Nat} {type : TypeRef} (spelled : type.Spelled depth) :
    Spells type.print type.lexemes := by
  induction spelled with
  | named own => exact own.spells
  | list own ih =>
    have opens : SpellsAll "[" [.punctuator '['] := SpellsAll.punctuator rfl rfl
    have closes : SpellsAll "]" [.punctuator ']'] := SpellsAll.punctuator rfl rfl
    exact ((opens.append_spells ih).append_all (by decide) closes).spells
  | nonNull own nullable ih =>
    have mark : SpellsAll "!" [.punctuator '!'] := SpellsAll.punctuator rfl rfl
    exact (ih.append_all (by decide) mark).spells

theorem trails_arguments {args : List (Name × Literal)}
    (own : ∀ a ∈ args, IsName a.1 ∧ a.2.Spelled nestingLimit) :
    Trails (printArguments args) (enclosedLexemesIfAny '(' ')' (Literal.lexemesFields args)) := by
  rw [printArguments, enclosedLexemesIfAny, Literal.printFields_eq, Literal.lexemesFields_eq]
  cases args with
  | nil => exact Trails.empty
  | cons a rest =>
    rw [if_neg (by simp), if_neg (by simp)]
    refine (spells_parens .line fun a member => ?_).spells.trails (parts_parens .line _)
    exact spells_labelled (own a member).1 (Literal.spells_print (own a member).2 .line)

theorem Directive.spells_print {d : Directive} (spelled : d.Spelled) :
    Spells d.print d.lexemes := by
  have sign : SpellsAll "@" [.punctuator '@'] := SpellsAll.punctuator rfl rfl
  exact (sign.append_spells spelled.name.spells).append (trails_arguments spelled.arguments)

theorem trails_directives {ds : List Directive} (own : ∀ d ∈ ds, d.Spelled) :
    Trails (printDirectives ds) (ds.flatMap Directive.lexemes) := by
  refine trails_join fun d member => Spells.trails ?_ (Parts.append (by decide) _)
  exact spells_blank.append_spells (Directive.spells_print (own d member))

theorem InputField.spells_print {f : InputField} (spelled : f.Spelled) {layout : Layout}
    (plain : layout = .line → f.description = none) : Spells (f.print layout) f.lexemes := by
  have parts {described given : String}
      (opens : SpellsAll described (descriptionLexemes f.description))
      (default : Trails given (defaultLexemes f.default)) :
      Spells (described ++ f.name ++ ": " ++ f.type.print ++ given ++ printDirectives f.directives)
        f.lexemes :=
    ((((opens.append_spells spelled.name.spells).append_all (by decide)
      spells_colon).append_spells (TypeRef.spells_print spelled.type)).append default).append
      (trails_directives spelled.directives)
  rw [InputField.print.eq_def]
  apply parts
  · cases layout with
    | line =>
      rw [plain rfl]
      exact SpellsAll.empty
    | wide level => exact spells_description level f.description
  · cases given : f.default with
    | none => exact Trails.empty
    | some v =>
      have equals : SpellsAll " = " [.punctuator '='] := spells_spaced rfl rfl
      exact (equals.append_spells (Literal.spells_print (spelled.default v given) layout)).trails
        (Parts.append (by decide) _)

theorem trails_parameters (level : Nat) {args : List InputField} (own : ∀ a ∈ args, a.Spelled) :
    Trails (printParameters level args)
      (enclosedLexemesIfAny '(' ')' (args.map InputField.lexemes)) := by
  rw [printParameters.eq_def, enclosedLexemesIfAny]
  cases args with
  | nil => exact Trails.empty
  | cons a rest =>
    have full : ¬ (a :: rest).isEmpty = true := by simp
    have full_lexemes : ¬ ((a :: rest).map InputField.lexemes).isEmpty = true := by simp
    rw [if_neg full, if_neg full_lexemes]
    generalize a :: rest = args at own
    dsimp only
    split
    · refine (spells_parens (.wide level) fun a member => ?_).spells.trails (parts_parens _ _)
      exact InputField.spells_print (own a member) (by simp [Layout.deeper])
    · -- On one line nothing has a description.
      rename_i plain
      refine (spells_parens .line fun a member => ?_).spells.trails (parts_parens _ _)
      refine InputField.spells_print (own a member) fun _ => ?_
      simp only [List.any_eq_true, not_exists, not_and, Bool.or_eq_true, not_or] at plain
      simpa using (plain a member).1

theorem Field.spells_print {f : Field} (spelled : f.Spelled) (level : Nat) :
    Spells (f.print level) f.lexemes :=
  (((((spells_description level f.description).append_spells spelled.name.spells).append
    (trails_parameters level spelled.arguments)).append_all (by decide) spells_colon).append_spells
    (TypeRef.spells_print spelled.type)).append (trails_directives spelled.directives)

theorem EnumValue.spells_print {v : EnumValue} (spelled : v.Spelled) (level : Nat) :
    Spells (v.print level) v.lexemes :=
  ((spells_description level v.description).append_spells spelled.name.spells).append
    (trails_directives spelled.directives)

/-! Definitions. -/

section
variable {α : Type} {text : α → String} {lexemes : α → List Token} {items : List α}

/-- Items on lines of their own between braces. -/
theorem spells_lines (level : Nat) (own : ∀ x ∈ items, Spells (text x) (lexemes x)) :
    SpellsAll (" \x7b" ++ String.join ((items.map text).map fun i => breakLine (level + 1) ++ i) ++
      breakLine level ++ "\x7d") (enclosedLexemes '\x7b' '\x7d' (items.map lexemes)) := by
  have opens : SpellsAll " \x7b" [.punctuator '\x7b'] := spells_mark [' '] [] rfl rfl rfl
  have closes : SpellsAll "\x7d" [.punctuator '\x7d'] := .punctuator rfl rfl
  have lines : Trails (String.join (items.map fun x => breakLine (level + 1) ++ text x))
      (items.flatMap lexemes) :=
    trails_join fun x member =>
      ((spells_breakLine _).append_spells (own x member)).trails ((parts_breakLine _).append _)
  rw [List.map_map]
  have all := ((opens.append_spells lines.spells).append_all (parts_breakLine level)
    (spells_breakLine level)).append closes
  simpa [enclosedLexemes, List.flatMap_def, Function.comp_def] using all

theorem trails_body (level : Nat) (own : ∀ x ∈ items, Spells (text x) (lexemes x)) :
    Trails (printBody level (items.map text))
      (enclosedLexemesIfAny '\x7b' '\x7d' (items.map lexemes)) := by
  rw [printBody, enclosedLexemesIfAny]
  by_cases none : items = []
  · subst items
    exact Trails.empty
  · rw [if_neg (by simpa using none), if_neg (by simpa using none)]
    refine (spells_lines level own).spells.trails ?_
    rw [String.append_assoc, String.append_assoc]
    exact Parts.append (by decide) _

end

theorem spells_names {separator : String} {c : Char} (parts : Parts separator)
    (own : SpellsAll separator [.punctuator c]) {names : List Name}
    (named : ∀ n ∈ names, IsName n) :
    Spells (separator.intercalate names) (separatedLexemes c names) := by
  have all := spells_intercalate parts own fun n member => (named n member).spells
  rwa [List.map_id'] at all

theorem trails_interfaces {names : List Name} (named : ∀ n ∈ names, IsName n) :
    Trails (printInterfaces names) (interfaceLexemes names) := by
  rw [printInterfaces, interfaceLexemes]
  split
  · exact Trails.empty
  · have word : SpellsAll "implements " [.name "implements"] := spells_word "implements" (by decide)
    have ampersand : SpellsAll " & " [.punctuator '&'] := spells_spaced rfl rfl
    exact ((spells_blank.append word).append_spells
      (spells_names (by decide) ampersand named)).trails (Parts.append (by decide) _)

theorem trails_members {names : List Name} (named : ∀ n ∈ names, IsName n) :
    Trails (if names.isEmpty then "" else " = " ++ " | ".intercalate names)
      (memberLexemes names) := by
  rw [memberLexemes]
  split
  · exact Trails.empty
  · have equals : SpellsAll " = " [.punctuator '='] := spells_spaced rfl rfl
    have bar : SpellsAll " | " [.punctuator '|'] := spells_spaced rfl rfl
    exact (equals.append_spells (spells_names (by decide) bar named)).trails
      (Parts.append (by decide) _)

theorem TypeDefinition.spells_print {t : TypeDefinition} (spelled : t.Spelled) :
    Spells t.printBare t.lexemes := by
  have opens (word : String) (named : IsName word) :
      Spells (word ++ " " ++ t.name) ([.name word] ++ [.name t.name]) :=
    (spells_word word named).append_spells spelled.name.spells
  have applied := trails_directives spelled.directives
  have own := spelled.body
  rw [printBare.eq_def, lexemes.eq_def]
  dsimp only
  cases body : t.body with
  | scalar => exact (opens "scalar" (by decide)).append applied
  | object is fs =>
    rw [body] at own
    have fields := trails_body 0 fun f member => Field.spells_print (own.2 f member) 1
    exact (((opens "type" (by decide)).append (trails_interfaces own.1)).append applied).append fields
  | interface is fs =>
    rw [body] at own
    have fields := trails_body 0 fun f member => Field.spells_print (own.2 f member) 1
    exact (((opens "interface" (by decide)).append (trails_interfaces own.1)).append applied).append
      fields
  | union ms =>
    rw [body] at own
    exact ((opens "union" (by decide)).append applied).append (trails_members own)
  | enum vs =>
    rw [body] at own
    have values := trails_body 0 fun v member => EnumValue.spells_print (own v member) 1
    exact ((opens "enum" (by decide)).append applied).append values
  | input fs =>
    rw [body] at own
    have field : ∀ f ∈ fs, Spells (f.print (.wide 1)) f.lexemes :=
      fun f member => InputField.spells_print (own f member) (by simp)
    exact ((opens "input" (by decide)).append applied).append (trails_body 0 field)

theorem SchemaDefinition.spells_print {s : SchemaDefinition} (spelled : s.Spelled) :
    Spells s.print s.lexemes := by
  have word : Spells "schema" [.name "schema"] := IsName.spells (by decide)
  have operation : ∀ o ∈ s.operations, Spells (o.1.word ++ ": " ++ o.2) (operationLexemes o) := by
    intro o member
    have kind : IsName o.1.word := by
      generalize o.1 = kind
      cases kind <;> decide
    exact spells_labelled kind (spelled.operations o member).spells
  have operations : Trails (printOperations " \x7b\x7d" s.operations)
      (enclosedLexemes '\x7b' '\x7d' (s.operations.map operationLexemes)) := by
    rw [printOperations]
    by_cases hollow : s.operations = []
    · rw [hollow]
      have opens : SpellsAll " \x7b" [.punctuator '\x7b'] :=
        spells_mark [' '] [] rfl rfl rfl
      have closes : SpellsAll "\x7d" [.punctuator '\x7d'] := .punctuator rfl rfl
      exact (opens.append closes).spells.trails (by decide)
    · rw [if_neg (by simpa using hollow)]
      have body := trails_body 0 operation
      rwa [enclosedLexemesIfAny, if_neg (by simpa using hollow)] at body
  exact (((spells_description 0 s.description).append_spells word).append
    (trails_directives spelled.directives)).append operations

theorem DirectiveDefinition.spells_print {d : DirectiveDefinition} (spelled : d.Spelled) :
    Spells d.print d.lexemes := by
  have sign : SpellsAll "@" [.punctuator '@'] := SpellsAll.punctuator rfl rfl
  have opens : SpellsAll "directive @" [.name "directive", .punctuator '@'] :=
    (spells_word "directive" (by decide)).append sign
  have repeatable : Trails (if d.repeatable then " repeatable" else "")
      (if d.repeatable then [.name "repeatable"] else []) := by
    split
    · have word : Spells "repeatable" [.name "repeatable"] := IsName.spells (by decide)
      exact (spells_blank.append_spells word).trails (by decide)
    · exact Trails.empty
  have places : SpellsAll " on " [.name "on"] :=
    spells_blank.append (spells_word "on" (by decide))
  have known : ∀ n ∈ Production.locationNames, IsName n := by decide
  have bar : SpellsAll " | " [.punctuator '|'] := spells_spaced rfl rfl
  exact ((((((spells_description 0 d.description).append opens).append_spells
    spelled.name.spells).append (trails_parameters 0 spelled.arguments)).append
    repeatable).append_all (by decide) places).append_spells
    (spells_names (by decide) bar fun n member => known n (spelled.locations n member))

/-- A definition that is no extension and belongs to the type system. -/
def Definition.Lasting : Definition → Prop
  | .schema _ | .type _ | .directive _ => True
  | _ => False

theorem Definition.spells_print {d : Definition} (spelled : d.Spelled) (lasting : d.Lasting)
    (first : Bool) : Spells (d.print first) d.lexemes := by
  cases d with
  | schema s => exact SchemaDefinition.spells_print spelled
  | type t =>
    exact (spells_description 0 t.description).append_spells (TypeDefinition.spells_print spelled)
  | directive d => exact DirectiveDefinition.spells_print spelled
  | _ => cases lasting

/-- The definitions of a document with blank lines between them. -/
def Document.body (d : Document) : String := "\n\n".intercalate (d.map (Definition.print false))

/-- What opens a document is shortened only if it is an operation. -/
theorem Definition.print_first {d : Definition} (lasting : d.Lasting) :
    d.print true = d.print false := by
  cases d <;> first | rfl | cases lasting

/-- A document without operations is printed definition by definition. -/
theorem Document.print_eq {d : Document} (lasting : ∀ x ∈ d, x.Lasting) (full : d ≠ []) :
    d.print = d.body ++ "\n" := by
  cases d with
  | nil => contradiction
  | cons x rest =>
    rw [Document.print, Definition.print_first (lasting x List.mem_cons_self)]
    rfl

/-- The definitions of a document of the type system are printed as a text that spells its
lexemes. -/
theorem Document.spells_body {d : Document} (spelled : ∀ x ∈ d, x.Spelled)
    (lasting : ∀ x ∈ d, x.Lasting) : Spells d.body (d.flatMap Definition.lexemes) := by
  have apart : SpellsAll "\n\n" [] := SpellsAll.ignored rfl
  have all := spells_intercalate (by decide) apart fun x member =>
    Definition.spells_print (spelled x member) (lasting x member) false
  rwa [intercalate_nil, ← List.flatMap_def] at all

end SchemaStitch.Sdl
