/-!
Documents of the GraphQL schema definition language: type system definitions and extensions, mixed
with operations and fragments. Names, literals and lists are kept as they were written, repetitions
included.
-/
namespace SchemaStitch.Sdl

/-- A name of a type, field, argument, directive, value or operation. -/
abbrev Name := String

/-- A literal; numbers keep their text. -/
inductive Literal where
  | null
  | bool (b : Bool)
  | int (text : String)
  | float (text : String)
  | string (s : String)
  | enum (name : Name)
  | variable (name : Name)
  | list (items : List Literal)
  | object (fields : List (Name × Literal))
  deriving Inhabited

/-- A reference to a type. -/
inductive TypeRef where
  | named (name : Name)
  | list (item : TypeRef)
  | nonNull (type : TypeRef)
  deriving DecidableEq, Inhabited

/-- The named type inside lists and non-null marks. -/
def TypeRef.innerName : TypeRef → Name
  | .named name => name
  | .list item => item.innerName
  | .nonNull type => type.innerName

/-- Whether null is excluded. -/
def TypeRef.isNonNull : TypeRef → Bool
  | .nonNull _ => true
  | _ => false

/-- A directive applied with arguments. -/
structure Directive where
  name : Name
  arguments : List (Name × Literal)
  deriving Inhabited

/-- An argument of a field or directive, or a field of an input object. -/
structure InputField where
  description : Option String
  name : Name
  type : TypeRef
  default : Option Literal
  directives : List Directive
  deriving Inhabited

/-- A field of an object or interface. -/
structure Field where
  description : Option String
  name : Name
  arguments : List InputField
  type : TypeRef
  directives : List Directive
  deriving Inhabited

/-- A value of an enum. -/
structure EnumValue where
  description : Option String
  name : Name
  directives : List Directive
  deriving Inhabited

/-- What a type of each kind consists of. -/
inductive TypeBody where
  | scalar
  | object (interfaces : List Name) (fields : List Field)
  | interface (interfaces : List Name) (fields : List Field)
  | union (members : List Name)
  | enum (values : List EnumValue)
  | input (fields : List InputField)
  deriving Inhabited

/-- The kinds of type. -/
inductive TypeKind where
  | scalar
  | object
  | interface
  | union
  | enum
  | input
  deriving DecidableEq, Inhabited

namespace TypeBody

/-- The kind of type that a body belongs to. -/
def kind : TypeBody → TypeKind
  | .scalar => .scalar
  | .object .. => .object
  | .interface .. => .interface
  | .union _ => .union
  | .enum _ => .enum
  | .input _ => .input

/-- The interfaces that are implemented. -/
def interfaces : TypeBody → List Name
  | .object names _ | .interface names _ => names
  | _ => []

/-- The fields of an object or interface. -/
def fields : TypeBody → List Field
  | .object _ fields | .interface _ fields => fields
  | _ => []

/-- The fields of an input object. -/
def inputFields : TypeBody → List InputField
  | .input fields => fields
  | _ => []

/-- The names of the fields, values or members. -/
def memberNames : TypeBody → List Name
  | .scalar => []
  | .object _ fields | .interface _ fields => fields.map (·.name)
  | .union members => members
  | .enum values => values.map (·.name)
  | .input fields => fields.map (·.name)

/-- The body of a kind that holds nothing. -/
def empty : TypeKind → TypeBody
  | .scalar => .scalar
  | .object => .object [] []
  | .interface => .interface [] []
  | .union => .union []
  | .enum => .enum []
  | .input => .input []

/-- A body with what a body of the same kind adds after it. -/
def append : TypeBody → TypeBody → TypeBody
  | .object is fs, .object js gs => .object (is ++ js) (fs ++ gs)
  | .interface is fs, .interface js gs => .interface (is ++ js) (fs ++ gs)
  | .union ms, .union ns => .union (ms ++ ns)
  | .enum vs, .enum ws => .enum (vs ++ ws)
  | .input fs, .input gs => .input (fs ++ gs)
  | body, _ => body

end TypeBody

/-- A type, or what an extension adds to one. -/
structure TypeDefinition where
  description : Option String
  name : Name
  directives : List Directive
  body : TypeBody
  deriving Inhabited

/-- The kinds of operation. -/
inductive OperationKind where
  | query
  | mutation
  | subscription
  deriving DecidableEq, Inhabited

/-- The word for a kind of operation. -/
def OperationKind.word : OperationKind → String
  | .query => "query"
  | .mutation => "mutation"
  | .subscription => "subscription"

/-- The kinds of operation in their conventional order. -/
def OperationKind.all : List OperationKind := [.query, .mutation, .subscription]

/-- The name of the object type that is the root of a kind of operation when nothing else is said.
-/
def OperationKind.defaultRoot : OperationKind → Name
  | .query => "Query"
  | .mutation => "Mutation"
  | .subscription => "Subscription"

/-- The root operations and directives of a schema, or what an extension adds to them. -/
structure SchemaDefinition where
  description : Option String
  directives : List Directive
  operations : List (OperationKind × Name)
  deriving Inhabited

/-- A directive that documents may apply. -/
structure DirectiveDefinition where
  description : Option String
  name : Name
  arguments : List InputField
  repeatable : Bool
  locations : List Name
  deriving Inhabited

/-- A part of a selection set. A field may be answered under another name. -/
inductive Selection where
  | field (answerName : Option Name) (name : Name) (arguments : List (Name × Literal))
      (directives : List Directive) (selections : List Selection)
  | spread (name : Name) (directives : List Directive)
  | inline (condition : Option Name) (directives : List Directive) (selections : List Selection)
  deriving Inhabited

/-- A variable of an operation. -/
structure VariableDefinition where
  name : Name
  type : TypeRef
  default : Option Literal
  directives : List Directive
  deriving Inhabited

/-- An operation, possibly anonymous. -/
structure Operation where
  kind : OperationKind
  name : Option Name
  parameters : List VariableDefinition
  directives : List Directive
  selections : List Selection
  deriving Inhabited

/-- A named fragment. -/
structure Fragment where
  name : Name
  condition : Name
  directives : List Directive
  selections : List Selection
  deriving Inhabited

/-- A definition of a document. An extension holds what it adds in the shape of what it extends. -/
inductive Definition where
  | schema (s : SchemaDefinition)
  | schemaExtension (s : SchemaDefinition)
  | type (t : TypeDefinition)
  | typeExtension (t : TypeDefinition)
  | directive (d : DirectiveDefinition)
  | operation (o : Operation)
  | fragment (f : Fragment)
  deriving Inhabited

/-- Definitions in the order in which they were written. -/
abbrev Document := List Definition

end SchemaStitch.Sdl
