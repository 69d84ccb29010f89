import SchemaStitch.Sdl.Document

/-!
Texts of documents. Definitions stand apart by a blank line and bodies are indented by two spaces.
In a wide layout the items of a literal have lines of their own and texts of several lines become
block strings; on one line nothing breaks.
-/
namespace SchemaStitch.Sdl

/-- Where a text is printed: on one line, or over lines at an indentation level. -/
inductive Layout where
  | line
  | wide (level : Nat)
  deriving DecidableEq

namespace Layout

/-- The layout of what stands between brackets. -/
def deeper : Layout → Layout
  | .line => .line
  | .wide level => .wide (level + 1)

end Layout

/-- A line end and the indentation of a level. -/
def breakLine (level : Nat) : String := "\n" ++ String.ofList (List.replicate (2 * level) ' ')

namespace Text

/-- A character inside a quoted string. -/
def stringChar (c : Char) : String :=
  if c == '"' then "\\\""
  else if c == '\\' then "\\\\"
  else if c.toNat == 0x8 then "\\b"
  else if c == '\n' then "\\n"
  else if c.toNat == 0xC then "\\f"
  else if c == '\r' then "\\r"
  else if c == '\t' then c.toString
  else if c.toNat < 0x20 then
    let digit (n : Nat) : Char := Nat.digitChar n |>.toUpper
    "\\u00" ++ String.ofList [digit (c.toNat / 16), digit (c.toNat % 16)]
  else c.toString

/-- A quoted string. -/
def quotedString (s : String) : String := "\"" ++ String.join (s.toList.map stringChar) ++ "\""

/-- The lines of a text, split at line feeds. -/
def splitLines : List Char → List (List Char)
  | [] => [[]]
  | c :: rest =>
    if c == '\n' then [] :: splitLines rest
    else match splitLines rest with
      | [] => [[c]]
      | line :: more => (c :: line) :: more

/-- Whether a line holds nothing but blanks. -/
def isBlankLine (line : List Char) : Bool := line.all fun c => c == ' ' || c == '\t'

/-- Whether a block string reads back to the text: the text has no carriage return, neither its
first nor its last line is blank, and some line with contents is not indented. -/
def fitsBlock (cs : List Char) : Bool :=
  let ls := splitLines cs
  let blankEnd (l : Option (List Char)) : Bool := match l with
    | some l => isBlankLine l
    | none => true
  let flush (l : List Char) : Bool := match l with
    | c :: _ => !(c == ' ' || c == '\t')
    | [] => false
  !cs.contains '\r' && !blankEnd ls.head? && !blankEnd ls.getLast? && ls.any flush

/-- Writes a backslash before three quotes in a row. -/
def escapeBlock : List Char → List Char
  | '"' :: '"' :: '"' :: rest => '\\' :: '"' :: '"' :: '"' :: escapeBlock rest
  | c :: rest => c :: escapeBlock rest
  | [] => []

/-- A block string at an indentation level. It stays on one line if it has one line of at most
seventy bytes that does not end in a quote or backslash. -/
def blockString (level : Nat) (s : String) : String :=
  let cs := s.toList
  let escaped := escapeBlock cs
  let closes := match cs.getLast? with
    | some c => c == '"' || c == '\\'
    | none => false
  if cs.contains '\n' || s.utf8ByteSize > 70 || closes then
    let body := (splitLines escaped).map fun l =>
      if l.isEmpty then "\n" else breakLine level ++ String.ofList l
    "\"\"\"" ++ String.join body ++ breakLine level ++ "\"\"\""
  else "\"\"\"" ++ String.ofList escaped ++ "\"\"\""

/-- A string literal: a block string for several lines in a wide layout, else quoted. -/
def stringLiteral (layout : Layout) (s : String) : String :=
  match layout with
  | .line => quotedString s
  | .wide level =>
    if s.toList.contains '\n' && fitsBlock s.toList then blockString level s else quotedString s

/-- A description before its item, on lines of its own. -/
def description (level : Nat) : Option String → String
  | none => ""
  | some s =>
    (if fitsBlock s.toList then blockString level s else quotedString s) ++ breakLine level

end Text

/-- Items between brackets: on one line with commas between, or each on a line and followed by a
comma. -/
def bracketed (layout : Layout) (opening close : String) (items : List String) : String :=
  if items.isEmpty then opening ++ close
  else match layout with
    | .line => opening ++ ", ".intercalate items ++ close
    | .wide level =>
      opening ++ String.join (items.map fun i => breakLine (level + 1) ++ i ++ ",") ++
        breakLine level ++ close

mutual

/-- The text of a literal. -/
def Literal.print (layout : Layout) : Literal → String
  | .null => "null"
  | .bool b => if b then "true" else "false"
  | .int text => text
  | .float text => text
  | .string s => Text.stringLiteral layout s
  | .enum name => name
  | .variable name => "$" ++ name
  | .list items => bracketed layout "[" "]" (Literal.printAll layout.deeper items)
  | .object fields => bracketed layout "\x7b" "\x7d" (Literal.printFields layout.deeper fields)

/-- The texts of literals. -/
def Literal.printAll (layout : Layout) : List Literal → List String
  | [] => []
  | v :: rest => v.print layout :: Literal.printAll layout rest

/-- The texts of the fields of a literal. -/
def Literal.printFields (layout : Layout) : List (Name × Literal) → List String
  | [] => []
  | (k, v) :: rest => (k ++ ": " ++ v.print layout) :: Literal.printFields layout rest

end

/-- The text of a type reference. -/
def TypeRef.print : TypeRef → String
  | .named name => name
  | .list item => "[" ++ item.print ++ "]"
  | .nonNull type => type.print ++ "!"

/-- Arguments on one line, nothing if there are none. -/
def printArguments (args : List (Name × Literal)) : String :=
  if args.isEmpty then "" else bracketed .line "(" ")" (Literal.printFields .line args)

/-- The text of an applied directive. -/
def Directive.print (d : Directive) : String := "@" ++ d.name ++ printArguments d.arguments

/-- Applied directives, each after a space. -/
def printDirectives (ds : List Directive) : String := String.join (ds.map fun d => " " ++ d.print)

/-- The text of an argument definition or input field. A description needs a wide layout. -/
def InputField.print (layout : Layout) (f : InputField) : String :=
  (match layout with | .line => "" | .wide level => Text.description level f.description) ++
  f.name ++ ": " ++ f.type.print ++
  (match f.default with | none => "" | some v => " = " ++ v.print layout) ++
  printDirectives f.directives

/-- Argument definitions: on one line unless one of them has a description or a directive. -/
def printParameters (level : Nat) (args : List InputField) : String :=
  if args.isEmpty then ""
  else
    let layout : Layout :=
      if args.any fun a => a.description.isSome || !a.directives.isEmpty then .wide level else .line
    bracketed layout "(" ")" (args.map (·.print layout.deeper))

/-- The text of a field of an object or interface. -/
def Field.print (level : Nat) (f : Field) : String :=
  Text.description level f.description ++ f.name ++ printParameters level f.arguments ++ ": " ++
  f.type.print ++ printDirectives f.directives

/-- The text of a value of an enum. -/
def EnumValue.print (level : Nat) (v : EnumValue) : String :=
  Text.description level v.description ++ v.name ++ printDirectives v.directives

/-- A body with an item per line at the level below, nothing if there are no items. -/
def printBody (level : Nat) (items : List String) : String :=
  if items.isEmpty then ""
  else
    " \x7b" ++ String.join (items.map fun i => breakLine (level + 1) ++ i) ++
      breakLine level ++ "\x7d"

/-- The interfaces that a type implements. -/
def printInterfaces (names : List Name) : String :=
  if names.isEmpty then "" else " implements " ++ " & ".intercalate names

/-- The text of a type, without its description, after a word such as `extend`. -/
def TypeDefinition.printBare (t : TypeDefinition) : String :=
  let directives := printDirectives t.directives
  match t.body with
  | .scalar => "scalar " ++ t.name ++ directives
  | .object interfaces fields =>
    "type " ++ t.name ++ printInterfaces interfaces ++ directives ++
      printBody 0 (fields.map (·.print 1))
  | .interface interfaces fields =>
    "interface " ++ t.name ++ printInterfaces interfaces ++ directives ++
      printBody 0 (fields.map (·.print 1))
  | .union members =>
    "union " ++ t.name ++ directives ++
      (if members.isEmpty then "" else " = " ++ " | ".intercalate members)
  | .enum values => "enum " ++ t.name ++ directives ++ printBody 0 (values.map (·.print 1))
  | .input fields =>
    "input " ++ t.name ++ directives ++ printBody 0 (fields.map (·.print (.wide 1)))

/-- The root operations of a schema in braces; `hollow` is what stands for none. -/
def printOperations (hollow : String) (operations : List (OperationKind × Name)) : String :=
  if operations.isEmpty then hollow
  else printBody 0 (operations.map fun (kind, root) => kind.word ++ ": " ++ root)

/-- The text of a schema. The braces are always there. -/
def SchemaDefinition.print (s : SchemaDefinition) : String :=
  Text.description 0 s.description ++ "schema" ++ printDirectives s.directives ++
    printOperations " \x7b\x7d" s.operations

/-- The text of a schema extension. Without root operations there are no braces. -/
def SchemaDefinition.printExtension (s : SchemaDefinition) : String :=
  "extend schema" ++ printDirectives s.directives ++ printOperations "" s.operations

/-- The text of a directive definition. -/
def DirectiveDefinition.print (d : DirectiveDefinition) : String :=
  Text.description 0 d.description ++ "directive @" ++ d.name ++ printParameters 0 d.arguments ++
    (if d.repeatable then " repeatable" else "") ++ " on " ++ " | ".intercalate d.locations

mutual

/-- The text of a selection. -/
def Selection.print (level : Nat) : Selection → String
  | .field answerName name args directives selections =>
    (match answerName with | none => "" | some a => a ++ ": ") ++ name ++ printArguments args ++
      printDirectives directives ++ printBody level (Selection.printAll (level + 1) selections)
  | .spread name directives => "..." ++ name ++ printDirectives directives
  | .inline condition directives selections =>
    "..." ++ (match condition with | none => "" | some c => " on " ++ c) ++
      printDirectives directives ++ printBody level (Selection.printAll (level + 1) selections)

/-- The texts of selections. -/
def Selection.printAll (level : Nat) : List Selection → List String
  | [] => []
  | s :: rest => s.print level :: Selection.printAll level rest

end

/-- The text of a variable of an operation. -/
def VariableDefinition.print (v : VariableDefinition) : String :=
  "$" ++ v.name ++ ": " ++ v.type.print ++
  (match v.default with | none => "" | some d => " = " ++ d.print .line) ++
  printDirectives v.directives

/-- The text of an operation. A plain query is shortened to its selections where that is allowed. -/
def Operation.print (shorten : Bool) (o : Operation) : String :=
  let body := printBody 0 (Selection.printAll 1 o.selections)
  if shorten && o.kind == .query && o.name.isNone && o.parameters.isEmpty &&
      o.directives.isEmpty then
    String.ofList (body.toList.drop 1)
  else
    o.kind.word ++ (match o.name with | none => "" | some n => " " ++ n) ++
      (if o.parameters.isEmpty then "" else bracketed .line "(" ")" (o.parameters.map (·.print))) ++
      printDirectives o.directives ++ body

/-- The text of a fragment. -/
def Fragment.print (f : Fragment) : String :=
  "fragment " ++ f.name ++ " on " ++ f.condition ++ printDirectives f.directives ++
    printBody 0 (Selection.printAll 1 f.selections)

/-- The text of a definition; `first` tells that it opens the document. -/
def Definition.print (first : Bool) : Definition → String
  | .schema s => s.print
  | .schemaExtension s => s.printExtension
  | .type t => Text.description 0 t.description ++ t.printBare
  | .typeExtension t => "extend " ++ t.printBare
  | .directive d => d.print
  | .operation o => o.print first
  | .fragment f => f.print

/-- The text of a document: a blank line between definitions and a line end after the last. -/
def Document.print : Document → String
  | [] => ""
  | d :: rest =>
    "\n\n".intercalate (d.print true :: rest.map (Definition.print false)) ++ "\n"

end SchemaStitch.Sdl
