import SchemaStitch.Schema.Literal
import SchemaStitch.Schema.Build

/-!
Valid schemas: there is a query root, every reference leads to a type of a kind that fits its place,
nothing is empty or named twice, interfaces are implemented as they promise, and directives are
applied where and as they are defined. Defaults are not checked against their types.
-/
namespace SchemaStitch

open Sdl

namespace Schema

/-- A name that is not reserved for the description of schemas. -/
def isFree (name : Name) : Bool :=
  match name.toList with
  | '_' :: '_' :: _ => false
  | _ => true

/-- The directives that every schema has unless it defines them itself. -/
def standardDirectives : List DirectiveDefinition :=
  let inputField (name : Name) (type : TypeRef) (value : Option Literal) : InputField :=
    ⟨none, name, type, value, []⟩
  let condition := inputField "if" (.nonNull (.named "Boolean")) none
  [⟨none, "skip", [condition], false, ["FIELD", "FRAGMENT_SPREAD", "INLINE_FRAGMENT"]⟩,
    ⟨none, "include", [condition], false, ["FIELD", "FRAGMENT_SPREAD", "INLINE_FRAGMENT"]⟩,
    ⟨none, "deprecated",
      [inputField "reason" (.named "String") (some (.string "No longer supported"))], false,
      ["FIELD_DEFINITION", "ARGUMENT_DEFINITION", "INPUT_FIELD_DEFINITION", "ENUM_VALUE"]⟩,
    ⟨none, "specifiedBy", [inputField "url" (.nonNull (.named "String")) none], false, ["SCALAR"]⟩]

/-- The definition of a directive. -/
def directive? (s : Schema) (name : Name) : Option DirectiveDefinition :=
  (s.directives ++ standardDirectives).find? (·.name == name)

/-- Whether an argument or input field must be given. -/
def isRequired (f : InputField) : Bool := f.type.isNonNull && f.default.isNone

/-- Whether a directive is applied at a place that allows it and with the arguments it defines. -/
def directiveFits (s : Schema) (place : Name) (d : Directive) : Bool :=
  distinct (d.arguments.map (·.1)) &&
  match s.directive? d.name with
  | none => false
  | some definition =>
    definition.locations.contains place &&
    d.arguments.all (fun (name, value) =>
      match definition.arguments.find? (·.name == name) with
      | some argument => accepts s argument.type value
      | none => false) &&
    definition.arguments.all fun argument =>
      !isRequired argument ||
      match d.arguments.lookup argument.name with
      | none | some .null => false
      | some _ => true

/-- Whether the directives applied at one place fit it, and none is repeated that must not be. -/
def directivesFit (s : Schema) (place : Name) (ds : List Directive) : Bool :=
  ds.all (directiveFits s place) &&
  distinct ((ds.map (·.name)).filter fun name =>
    match s.directive? name with
    | some definition => !definition.repeatable
    | none => false)

/-- Whether a reference leads to a type that can be given. -/
def isInputRef (s : Schema) (type : TypeRef) : Bool :=
  match s.type? type.innerName with
  | some t => isInputKind t.kind
  | none => introspectionEnums.contains type.innerName

/-- Whether a reference leads to a type that can be answered. -/
def isOutputRef (s : Schema) (type : TypeRef) : Bool :=
  match s.type? type.innerName with
  | some t => t.kind != .input
  | none => introspectionTypes.contains type.innerName

/-- Whether arguments or input fields are well formed at their place. -/
def inputFieldsFit (s : Schema) (place : Name) (fs : List InputField) : Bool :=
  distinct (fs.map (·.name)) &&
  fs.all fun f => isFree f.name && isInputRef s f.type && directivesFit s place f.directives

/-- Whether the fields of an object or interface are well formed. -/
def fieldsFit (s : Schema) (fs : List Field) : Bool :=
  !fs.isEmpty &&
  fs.all fun f => isFree f.name && isOutputRef s f.type &&
    directivesFit s "FIELD_DEFINITION" f.directives &&
    inputFieldsFit s "ARGUMENT_DEFINITION" f.arguments

/-- Whether a type is the other one, a member of it or an implementation of it. -/
def isNamedSubtype (s : Schema) (name other : Name) : Bool :=
  name == other ||
  match s.type? other with
  | none => false
  | some wide =>
    match wide.body with
    | .union members => members.contains name
    | .interface .. =>
      match s.type? name with
      | some narrow => narrow.body.interfaces.contains other
      | none => false
    | _ => false

/-- Whether a field of one type can stand for a field of another. -/
def isSubtype (s : Schema) : TypeRef → TypeRef → Bool
  | .nonNull a, .nonNull b => isSubtype s a b
  | .nonNull a, b => isSubtype s a b
  | .list a, .list b => isSubtype s a b
  | .named a, .named b => isNamedSubtype s a b
  | _, _ => false

/-- Whether a field keeps what an interface promises of it. -/
def fieldKeeps (s : Schema) (promised given : Field) : Bool :=
  isSubtype s given.type promised.type &&
  promised.arguments.all (fun a =>
    match given.arguments.find? (·.name == a.name) with
    | some b => a.type == b.type
    | none => false) &&
  given.arguments.all fun b =>
    promised.arguments.any (·.name == b.name) || !isRequired b

/-- Whether a type implements the interfaces that it names, and names those that they implement. -/
def interfacesFit (s : Schema) (t : SchemaType) : Bool :=
  t.body.interfaces.all fun name =>
    name != t.name &&
    match s.type? name with
    | none => false
    | some i =>
      i.kind == .interface &&
      i.body.interfaces.all t.body.interfaces.contains &&
      i.body.fields.all fun promised =>
        match t.body.fields.find? (·.name == promised.name) with
        | some given => fieldKeeps s promised given
        | none => false

/-- The input objects that a type's values must contain a value of. -/
def demanded (s : Schema) (name : Name) : List Name :=
  match s.type? name with
  | none => []
  | some t => t.body.inputFields.filterMap fun f =>
    match f.type with
    | .nonNull (.named n) => some n
    | _ => none

/-- The names reached from some names by a relation in a number of rounds. -/
def reach (next : Name → List Name) : Nat → List Name → List Name
  | 0, seen => seen
  | rounds + 1, seen =>
    let fresh := (seen.flatMap next).foldl
      (fun acc n => if seen.contains n || acc.contains n then acc else acc ++ [n]) []
    if fresh.isEmpty then seen else reach next rounds (seen ++ fresh)

/-- Whether no value of an input object has to contain another value of it. -/
def isFinitary (s : Schema) (name : Name) : Bool :=
  !(reach (demanded s) (s.types.length + 1) (demanded s name)).contains name

/-- The names with a sign in front: `@` for directives, `:` for types. -/
def directiveNode (name : Name) : Name := "@" ++ name

/-- The nodes that arguments or input fields use: the directives applied to them and their types. -/
def inputNodes (fs : List InputField) : List Name :=
  fs.flatMap fun f => f.directives.map (fun d => directiveNode d.name) ++ [":" ++ f.type.innerName]

/-- The nodes that the definition of a directive or type uses. -/
def uses (s : Schema) (node : Name) : List Name :=
  match node.toList with
  | '@' :: name =>
    match s.directive? (String.ofList name) with
    | some d => inputNodes d.arguments
    | none => []
  | ':' :: name =>
    match s.type? (String.ofList name) with
    | some t =>
      t.directives.map (fun d => directiveNode d.name) ++
      (match t.body with
        | .enum values => values.flatMap fun v => v.directives.map fun d => directiveNode d.name
        | .input fields => inputNodes fields
        | _ => [])
    | none => []
  | _ => []

/-- Whether the definition of a directive does not use the directive itself. -/
def isGrounded (s : Schema) (d : DirectiveDefinition) : Bool :=
  let node := directiveNode d.name
  let rounds := s.types.length + s.directives.length + standardDirectives.length + 6
  !(reach (uses s) rounds (uses s node)).contains node

/-- Whether a type is well formed. -/
def typeFits (s : Schema) (t : SchemaType) : Bool :=
  isFree t.name &&
  match t.body with
  | .scalar => directivesFit s "SCALAR" t.directives
  | .object _ fields =>
    directivesFit s "OBJECT" t.directives && fieldsFit s fields && interfacesFit s t
  | .interface _ fields =>
    directivesFit s "INTERFACE" t.directives && fieldsFit s fields && interfacesFit s t
  | .union members =>
    directivesFit s "UNION" t.directives && !members.isEmpty &&
    members.all fun m => match s.type? m with
      | some o => o.kind == .object
      | none => false
  | .enum values =>
    directivesFit s "ENUM" t.directives && !values.isEmpty &&
    values.all fun v => isFree v.name && directivesFit s "ENUM_VALUE" v.directives
  | .input fields =>
    directivesFit s "INPUT_OBJECT" t.directives && !fields.isEmpty &&
    inputFieldsFit s "INPUT_FIELD_DEFINITION" fields && isFinitary s t.name

/-- Whether the root operations are distinct objects, one of them for queries. -/
def rootsFit (s : Schema) : Bool :=
  (s.root? .query).isSome &&
  distinct (s.roots.map (·.2)) &&
  s.roots.all fun (_, name) => match s.type? name with
    | some t => t.kind == .object
    | none => false

/-- Whether a schema obeys all rules. -/
def isValid (s : Schema) : Bool :=
  rootsFit s && directivesFit s "SCHEMA" s.appliedDirectives &&
  s.directives.all (fun d =>
    isFree d.name && inputFieldsFit s "ARGUMENT_DEFINITION" d.arguments && isGrounded s d) &&
  s.standard.all (fun t => directivesFit s "SCALAR" t.directives) &&
  s.types.all (typeFits s)

/-- A schema that obeys all rules, without the built-in scalars that it does not use. -/
def validate? (s : Schema) : Option Schema :=
  if isValid s then some { s with standard := s.standard.filter fun t => s.usesStandard t.name }
  else none

end Schema
end SchemaStitch
