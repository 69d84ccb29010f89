import SchemaStitch.Schema.Basic
import SchemaStitch.Json.Decimal

/-!
Which literals a type accepts. A literal that is not a list stands for a list of itself, custom
scalars accept everything, and null is refused by non-null types alone.
-/
namespace SchemaStitch

open Sdl

namespace Schema

/-- The integer that a literal's text spells. -/
def integerOf (text : String) : Int :=
  let magnitude (cs : List Char) : Int := cs.foldl (fun n c => n * 10 + (c.toNat - 48 : Nat)) 0
  match text.toList with
  | '-' :: cs => -magnitude cs
  | cs => magnitude cs

/-- Whether an integer fits 32 bits. -/
def fitsInt (n : Int) : Bool := Int32.minValue.toInt ≤ n && n ≤ Int32.maxValue.toInt

/-- Whether the number that a literal's text spells is finite as a binary64 number. -/
def isFinite (text : String) : Bool :=
  let cs := text.toList.filter (· != '-')
  let mantissa := text.toList.takeWhile fun c => c != 'e' && c != 'E'
  let digits := mantissa.filter Char.isDigit
  let places := ((mantissa.dropWhile (· != '.')).drop 1).length
  let power := text.toList.drop (mantissa.length + 1)
  let shift := integerOf (String.ofList (power.filter (· != '+')))
  let exponent : Int := shift - places
  if cs.isEmpty || digits.all (· == '0') then true
  else if exponent + digits.length > 400 then false
  else if exponent + digits.length < -400 then true
  else
    let value : Json.Decimal := ⟨digits.foldl (fun n c => n * 10 + (c.toNat - 48)) 0, exponent⟩
    value.toBinary.exponent ≤ 971

/-- Whether a type is a scalar that is custom, or built in and admitted by a test. -/
def scalarAccepts (s : Schema) (type : TypeRef) (test : Name → Bool) : Bool :=
  match s.type? type.innerName with
  | none => true
  | some t => t.kind == .scalar && (!standardScalars.contains t.name || test t.name)

/-- The type of the items of a list type. -/
def itemType? : TypeRef → Option TypeRef
  | .named _ => none
  | .list item => some item
  | .nonNull type => itemType? type

/-- Whether a kind of type can have literals. -/
def isInputKind (kind : TypeKind) : Bool := kind == .scalar || kind == .enum || kind == .input

mutual

/-- Whether a type accepts a literal. A type that is not defined is reported elsewhere. -/
def accepts (s : Schema) (type : TypeRef) : Literal → Bool
  | .null => (s.type? type.innerName).isNone || !type.isNonNull
  | .variable _ => true
  | .bool _ => scalarAccepts s type (· == "Boolean")
  | .int text => scalarAccepts s type fun name =>
      name == "ID" || (name == "Int" && fitsInt (integerOf text)) ||
      (name == "Float" && isFinite text)
  | .float text => scalarAccepts s type fun name => name == "Float" && isFinite text
  | .string _ => scalarAccepts s type fun name => name == "String" || name == "ID"
  | .enum value =>
    match s.type? type.innerName with
    | none => true
    | some t => match t.body with
      | .enum values => values.any (·.name == value)
      | .scalar => !standardScalars.contains t.name
      | _ => false
  | .list items =>
    match s.type? type.innerName with
    | none => true
    | some t =>
      let custom := t.kind == .scalar && !standardScalars.contains t.name
      match itemType? type with
      | some item => isInputKind t.kind && acceptsAll s item items
      | none => custom && acceptsAll s type items
  | .object given =>
    match s.type? type.innerName with
    | none => true
    | some t => match t.body with
      | .scalar => !standardScalars.contains t.name
      | .input fields =>
        given.all (fun (name, _) => fields.any (·.name == name)) &&
        fields.all (fun f =>
          !(f.type.isNonNull && f.default.isNone) ||
          (given.any (·.1 == f.name) &&
            !given.any fun | (name, .null) => name == f.name | _ => false)) &&
        acceptsFields s fields [] given
      | _ => false

/-- Whether a type accepts all literals of a list. -/
def acceptsAll (s : Schema) (type : TypeRef) : List Literal → Bool
  | [] => true
  | v :: rest => accepts s type v && acceptsAll s type rest

/-- Whether the fields of an input object accept what is given for them; of a field that is given
twice the first counts. -/
def acceptsFields (s : Schema) (fields : List InputField) (seen : List Name) :
    List (Name × Literal) → Bool
  | [] => true
  | (name, v) :: rest =>
    (seen.contains name ||
      match fields.find? (·.name == name) with
      | some f => accepts s f.type v
      | none => true) &&
    acceptsFields s fields (name :: seen) rest

end

end Schema
end SchemaStitch
