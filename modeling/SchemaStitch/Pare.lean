import SchemaStitch.Merge.Document
import SchemaStitch.ResolverMap.Basic

/-!
Paring: taking from a document what another one defines, member by member, and from a resolver map
the resolvers of the fields that are taken. Both documents are consolidated first.
-/
namespace SchemaStitch

open Sdl

namespace Pare

/-- The items whose names are not among the given ones. -/
def without {α : Type} (name : α → Name) (items : List α) (names : List Name) : List α :=
  items.filter fun item => !names.contains (name item)

/-- The names of the items whose names are among the given ones. -/
def taken {α : Type} (name : α → Name) (items : List α) (names : List Name) : List Name :=
  (items.map name).filter names.contains

/-- What becomes of a definition: the part that is left, nothing, or, if the other definition is of
another kind, the definition as it is. -/
inductive Outcome where
  | kept (d : Definition)
  | removed
  | mismatch

/-- The outcome for a type with what is left of its body: a body that is left empty takes the type
with it. -/
def leftOver (t : TypeDefinition) (names : List Name) (body : TypeBody) : Outcome :=
  if body.memberNames.isEmpty then .removed
  else .kept (.type { t with directives := without (·.name) t.directives names, body })

/-- Takes from a definition the directives and members that another definition names. -/
def definition : Definition → Definition → Outcome
  | .type l, .type r =>
    let names := r.body.memberNames
    let applied := r.directives.map (·.name)
    match l.body, r.body with
    | .object is fs, .object .. => leftOver l applied (.object is (without (·.name) fs names))
    | .interface is fs, .interface .. =>
      leftOver l applied (.interface is (without (·.name) fs names))
    | .input fs, .input _ => leftOver l applied (.input (without (·.name) fs names))
    | .enum vs, .enum _ => leftOver l applied (.enum (without (·.name) vs names))
    | .union ms, .union _ => leftOver l applied (.union (without id ms names))
    | .scalar, .scalar => .removed
    | _, _ => .mismatch
  | .schema l, .schema r =>
    let operations := l.operations.filter fun o => !(r.operations.map (·.1)).contains o.1
    if operations.isEmpty then .removed
    else
      .kept (.schema { l with
        directives := without (·.name) l.directives (r.directives.map (·.name)), operations })
  | .directive _, .directive _ => .removed
  | .operation _, .operation _ => .removed
  | .fragment _, .fragment _ => .removed
  | _, _ => .mismatch

/-- The names of the fields that paring takes from an object or interface. -/
def takenFields : Definition → Definition → List Name
  | .type l, .type r =>
    match l.body, r.body with
    | .object _ fs, .object _ gs | .interface _ fs, .interface _ gs =>
      taken (·.name) fs (gs.map (·.name))
    | _, _ => []
  | _, _ => []

/-- Takes the resolver of a field: the entry in the branch of its type, else, for a field of a root
operation, the resolver that stands flat. -/
def takeResolver (isRoot : Bool) (type : Name) (map : ResolverMap) (field : Name) : ResolverMap :=
  match map.removeAt [type, field] with
  | (map, some _) => map
  | (map, none) => if isRoot && (ResolverMap.flat? map field).isSome then map.erase field else map

/-- The names of the root operation types: those that the first schema definition lists, or the
conventional ones. -/
def rootNames : Document → List Name
  | [] => OperationKind.all.map (·.defaultRoot)
  | .schema s :: _ => s.operations.map (·.2)
  | _ :: rest => rootNames rest

/-- Takes one definition from a document and from a resolver map. -/
def subtract (roots : List Name) (r : Definition) : Document → ResolverMap → Document × ResolverMap
  | [], map => ([], map)
  | l :: rest, map =>
    if r.key.matches l.key then
      let owner := match l with
        | .type t => t.name
        | _ => ""
      let isRoot := match l with
        | .type ⟨_, name, _, .object ..⟩ => roots.contains name
        | _ => false
      let map := (takenFields l r).foldl (takeResolver isRoot owner) map
      match definition l r with
      | .kept d => (d :: rest, map)
      | .removed => (rest, map)
      | .mismatch => (l :: rest, map)
    else
      let (rest, map) := subtract roots r rest map
      (l :: rest, map)

/-- Takes definitions one after the other. -/
def subtractAll (roots : List Name) : Document → Document → ResolverMap → Document × ResolverMap
  | [], left, map => (left, map)
  | r :: rest, left, map =>
    let (left, map) := subtract roots r left map
    subtractAll roots rest left map

end Pare

/-- Takes from a document what another one defines, and from a resolver map the resolvers of the
fields that are taken. -/
def Sdl.Document.pare (left right : Document) (map : ResolverMap) : Document × ResolverMap :=
  let left := left.consolidated
  Pare.subtractAll (Pare.rootNames left) right.consolidated left map

end SchemaStitch
