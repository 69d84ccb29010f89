import SchemaStitch.Sdl.Document
import SchemaStitch.Sdl.Token

/-!
The grammar of documents. Each production reads lexemes from the front of a list and leaves the
rest; one lexeme decides between alternatives, so nothing is read twice. Types, literals and
selections nest no deeper than `nestingLimit`.
-/
namespace SchemaStitch.Sdl

/-- A production: reads from the front of the lexemes and leaves the rest, or refuses. -/
abbrev Production (α : Type) := StateT (List Token) Option α

/-- How deep types, literals and selections may nest. -/
def nestingLimit : Nat := 500

namespace Production

variable {α : Type}

/-- Refuses. -/
def refuse : Production α := fun _ => none

/-- The next lexeme, which stays. -/
def peek : Production (Option Token) := fun ts => some (ts.head?, ts)

/-- Whether the next lexeme is a given one, which stays. -/
def isNext (t : Token) : Production Bool := fun ts => some (ts.head? == some t, ts)

/-- Reads a given lexeme. -/
def expect (t : Token) : Production Unit
  | u :: rest => if u = t then some ((), rest) else none
  | [] => none

/-- Reads a given lexeme if it is next, and tells whether it was. -/
def optional (t : Token) : Production Bool
  | u :: rest => if u = t then some (true, rest) else some (false, u :: rest)
  | [] => some (false, [])

/-- Reads a punctuator. -/
def mark (c : Char) : Production Unit := expect (.punctuator c)

/-- Reads any name. -/
def name : Production Name
  | .name n :: rest => some (n, rest)
  | _ => none

/-- Reads a given word. -/
def word (text : String) : Production Unit := expect (.name text)

/-- Reads a description if one is next. -/
def description : Production (Option String)
  | .string s :: rest => some (some s, rest)
  | ts => some (none, ts)

/-- Reads items until a closing punctuator, which is read too. -/
def itemsUntil (close : Char) (item : Production α) : Nat → List α → Production (List α)
  | 0, _ => refuse
  | fuel + 1, acc => do
    if ← optional (.punctuator close) then return acc.reverse
    itemsUntil close item fuel ((← item) :: acc)

/-- Reads an opening punctuator, any number of items and a closing punctuator. -/
def enclosed (opening close : Char) (item : Production α) : Production (List α) := do
  mark opening
  fun ts => itemsUntil close item (ts.length + 1) [] ts

/-- Reads an opening punctuator, at least one item and a closing punctuator. -/
def enclosedSome (opening close : Char) (item : Production α) : Production (List α) := do
  match ← enclosed opening close item with
  | [] => refuse
  | items => return items

/-- Reads an enclosed list if its opening punctuator is next. -/
def enclosedIfAny (opening close : Char) (item : Production α) : Production (List α) := do
  if ← isNext (.punctuator opening) then enclosedSome opening close item else return []

/-- Reads items, each after a separator. -/
def separatedTail (separator : Char) (item : Production α) : Nat → List α → Production (List α)
  | 0, acc => return acc.reverse
  | fuel + 1, acc => do
    if ← optional (.punctuator separator) then
      separatedTail separator item fuel ((← item) :: acc)
    else return acc.reverse

/-- Reads at least one item with separators between, and possibly one before the first. -/
def separated (separator : Char) (item : Production α) : Production (List α) := do
  let _ ← optional (.punctuator separator)
  let first ← item
  fun ts => separatedTail separator item ts.length [first] ts

/-- A type reference. -/
def typeRef : Nat → Production TypeRef
  | 0 => refuse
  | depth + 1 => do
    let base ←
      if ← optional (.punctuator '[') then
        let item ← typeRef depth
        mark ']'
        pure (TypeRef.list item)
      else TypeRef.named <$> name
    if ← optional (.punctuator '!') then return .nonNull base
    return base

/-- A literal; `constant` ones hold no variable. -/
def literal (constant : Bool) : Nat → Production Literal
  | 0 => refuse
  | depth + 1 => do
    match ← peek with
    | some (.punctuator '[') => Literal.list <$> enclosed '[' ']' (literal constant depth)
    | some (.punctuator '\x7b') =>
      Literal.object <$> enclosed '\x7b' '\x7d' do
        let field ← name
        mark ':'
        return (field, ← literal constant depth)
    | some (.punctuator '$') =>
      mark '$'
      let n ← name
      if constant then refuse else return .variable n
    | some (.int text) => do expect (.int text); return .int text
    | some (.float text) => do expect (.float text); return .float text
    | some (.string s) => do expect (.string s); return .string s
    | some (.name n) => do
      word n
      return if n == "true" then .bool true else if n == "false" then .bool false
        else if n == "null" then .null else .enum n
    | _ => refuse

/-- Arguments of a directive or of a selected field. -/
def arguments (constant : Bool) : Production (List (Name × Literal)) :=
  enclosedIfAny '(' ')' do
    let argument ← name
    mark ':'
    return (argument, ← literal constant nestingLimit)

/-- Applied directives, as many as follow. -/
def directivesFrom (constant : Bool) : Nat → List Directive → Production (List Directive)
  | 0, acc => return acc.reverse
  | fuel + 1, acc => do
    if ← optional (.punctuator '@') then
      let directive ← name
      let args ← arguments constant
      directivesFrom constant fuel (⟨directive, args⟩ :: acc)
    else return acc.reverse

/-- Applied directives. -/
def directives (constant : Bool) : Production (List Directive) :=
  fun ts => directivesFrom constant ts.length [] ts

/-- The default of an argument, input field or variable, if there is one. -/
def default : Production (Option Literal) := do
  if ← optional (.punctuator '=') then return some (← literal true nestingLimit) else return none

/-- An argument definition or an input field. -/
def inputField : Production InputField := do
  let description ← description
  let field ← name
  mark ':'
  let type ← typeRef nestingLimit
  let default ← default
  return ⟨description, field, type, default, ← directives true⟩

/-- A field of an object or interface. -/
def field : Production Field := do
  let description ← description
  let field ← name
  let args ← enclosedIfAny '(' ')' inputField
  mark ':'
  let type ← typeRef nestingLimit
  return ⟨description, field, args, type, ← directives true⟩

/-- A value of an enum. The words of the other literals are none. -/
def enumValue : Production EnumValue := do
  let description ← description
  let value ← name
  if value == "true" || value == "false" || value == "null" then refuse
  return ⟨description, value, ← directives true⟩

/-- The interfaces that a type implements. -/
def interfaces : Production (List Name) := do
  if ← optional (.name "implements") then separated '&' name else return []

/-- The members of a union, if an equals sign follows. -/
def members : Production (List Name) := do
  if ← optional (.punctuator '=') then separated '|' name else return []

/-- The word for a kind of operation. -/
def operationKind : Production OperationKind := do
  let kind ← name
  if kind == "query" then return .query
  else if kind == "mutation" then return .mutation
  else if kind == "subscription" then return .subscription
  else refuse

/-- A root operation of a schema. -/
def rootOperation : Production (OperationKind × Name) := do
  let kind ← operationKind
  mark ':'
  return (kind, ← name)

/-- What follows the word for a kind of type: the name, directives and body. -/
def typeDefinition (description : Option String) (kind : String) : Production TypeDefinition := do
  let typeName ← name
  if kind == "scalar" then
    return ⟨description, typeName, ← directives true, .scalar⟩
  else if kind == "type" || kind == "interface" then
    let interfaces ← interfaces
    let directives ← directives true
    let fields ← enclosedIfAny '\x7b' '\x7d' field
    return ⟨description, typeName, directives,
      if kind == "type" then .object interfaces fields else .interface interfaces fields⟩
  else if kind == "union" then
    let directives ← directives true
    return ⟨description, typeName, directives, .union (← members)⟩
  else if kind == "enum" then
    let directives ← directives true
    return ⟨description, typeName, directives, .enum (← enclosedIfAny '\x7b' '\x7d' enumValue)⟩
  else if kind == "input" then
    let directives ← directives true
    return ⟨description, typeName, directives, .input (← enclosedIfAny '\x7b' '\x7d' inputField)⟩
  else refuse

/-- The places in which a directive may be applied. -/
def locationNames : List Name :=
  ["QUERY", "MUTATION", "SUBSCRIPTION", "FIELD", "FRAGMENT_DEFINITION", "FRAGMENT_SPREAD",
    "INLINE_FRAGMENT", "VARIABLE_DEFINITION", "SCHEMA", "SCALAR", "OBJECT", "FIELD_DEFINITION",
    "ARGUMENT_DEFINITION", "INTERFACE", "UNION", "ENUM", "ENUM_VALUE", "INPUT_OBJECT",
    "INPUT_FIELD_DEFINITION"]

/-- The name of a place in which a directive may be applied. -/
def location : Production Name := do
  let place ← name
  if locationNames.contains place then return place else refuse

/-- What follows the word `directive`. -/
def directiveDefinition (description : Option String) : Production DirectiveDefinition := do
  mark '@'
  let directive ← name
  let args ← enclosedIfAny '(' ')' inputField
  let repeatable ← optional (.name "repeatable")
  word "on"
  return ⟨description, directive, args, repeatable, ← separated '|' location⟩

/-- A selection set. -/
def selections : Nat → Production (List Selection)
  | 0 => refuse
  | depth + 1 => enclosedSome '\x7b' '\x7d' do
    if ← optional .spread then
      match ← peek with
      | some (.name n) =>
        word n
        if n == "on" then
          let condition ← name
          let directives ← directives false
          return .inline (some condition) directives (← selections depth)
        else return .spread n (← directives false)
      | _ =>
        let directives ← directives false
        return .inline none directives (← selections depth)
    else
      let first ← name
      let aliased ← optional (.punctuator ':')
      let (answerName, field) ←
        if aliased then (fun f => (some first, f)) <$> name else pure (none, first)
      let args ← arguments false
      let directives ← directives false
      let inner ← if ← isNext (.punctuator '\x7b') then selections depth else pure []
      return .field answerName field args directives inner

/-- A variable of an operation. -/
def variableDefinition : Production VariableDefinition := do
  mark '$'
  let n ← name
  mark ':'
  let type ← typeRef nestingLimit
  let default ← default
  return ⟨n, type, default, ← directives true⟩

/-- What follows the word for a kind of operation. -/
def operation (kind : OperationKind) : Production Operation := do
  let operationName ← match ← peek with
    | some (.name n) => do word n; pure (some n)
    | _ => pure none
  let parameters ← enclosedIfAny '(' ')' variableDefinition
  let directives ← directives false
  return ⟨kind, operationName, parameters, directives, ← selections nestingLimit⟩

/-- What follows the word `fragment`. -/
def fragment : Production Fragment := do
  let fragmentName ← name
  if fragmentName == "on" then refuse
  word "on"
  let condition ← name
  let directives ← directives false
  return ⟨fragmentName, condition, directives, ← selections nestingLimit⟩

/-- What follows the word `extend`. An extension adds something. -/
def extension : Production Definition := do
  let kind ← name
  if kind == "schema" then
    let directives ← directives true
    let operations ← enclosedIfAny '\x7b' '\x7d' rootOperation
    if directives.isEmpty && operations.isEmpty then refuse
    return .schemaExtension ⟨none, directives, operations⟩
  else
    let type ← typeDefinition none kind
    let hollow := match type.body with
      | .scalar => true
      | .object interfaces fields | .interface interfaces fields =>
        interfaces.isEmpty && fields.isEmpty
      | .union members => members.isEmpty
      | .enum values => values.isEmpty
      | .input fields => fields.isEmpty
    if type.directives.isEmpty && hollow then refuse
    return .typeExtension type

/-- A definition. Only definitions of the type system have descriptions. -/
def definition : Production Definition := do
  let described ← description
  if described.isNone && (← isNext (.punctuator '\x7b')) then
    return .operation ⟨.query, none, [], [], ← selections nestingLimit⟩
  let kind ← name
  if kind == "schema" then
    let directives ← directives true
    return .schema ⟨described, directives, ← enclosedSome '\x7b' '\x7d' rootOperation⟩
  else if kind == "directive" then
    return .directive (← directiveDefinition described)
  else if described.isSome then
    return .type (← typeDefinition described kind)
  else if kind == "extend" then extension
  else if kind == "fragment" then return .fragment (← fragment)
  else if kind == "query" then return .operation (← operation .query)
  else if kind == "mutation" then return .operation (← operation .mutation)
  else if kind == "subscription" then return .operation (← operation .subscription)
  else return .type (← typeDefinition none kind)

/-- Definitions up to the end. -/
def definitionsFrom : Nat → List Definition → List Token → Option Document
  | _, acc, [] => some acc.reverse
  | 0, _, _ => none
  | fuel + 1, acc, ts =>
    match definition ts with
    | none => none
    | some (d, rest) => definitionsFrom fuel (d :: acc) rest

end Production

/-- The document that a text spells. A text without any definition is none. -/
def Document.parse? (text : String) : Option Document := do
  let ts ← Token.scan? text
  if ts.isEmpty then none else Production.definitionsFrom ts.length [] ts

/-- The literal that a text spells. -/
def Literal.parse? (text : String) : Option Literal := do
  let ts ← Token.scan? text
  match Production.literal false nestingLimit ts with
  | some (v, []) => some v
  | _ => none

end SchemaStitch.Sdl
