import SchemaStitch.Merge.Policy

/-!
Combining lists of named items. An item whose name is new is added at the end; one whose name is
there already is settled with the item that is there, in its place.
-/
namespace SchemaStitch.Merge

open Sdl

variable {m : Type → Type} [Monad m] {α : Type}

/-- Brings one item into a list. -/
def bring (name : α → Name) (settle : α → α → m α) (item : α) : List α → m (List α)
  | [] => return [item]
  | present :: rest =>
    if name present = name item then return (← settle present item) :: rest
    else return present :: (← bring name settle item rest)

/-- Brings all items of the right list into the left one, in order. -/
def combine (name : α → Name) (settle : α → α → m α) (left : List α) : List α → m (List α)
  | [] => return left
  | item :: rest => do combine name settle (← bring name settle item left) rest

/-- The names of both lists without repetitions, in the order in which they first appear. -/
def unionNames (left right : List Name) : List Name := collect [] (left ++ right)
where
  /-- Adds the names that are new to those collected so far. -/
  collect (seen : List Name) : List Name → List Name
    | [] => seen
    | n :: rest => if seen.contains n then collect seen rest else collect (seen ++ [n]) rest

/-- Root operations of the left side with those of the right side written over them. -/
def combineOperations (left right : List (OperationKind × Name)) : List (OperationKind × Name) :=
  right.foldl put left
where
  /-- Writes one root operation in the place of its kind, or at the end. -/
  put : List (OperationKind × Name) → OperationKind × Name → List (OperationKind × Name)
    | [], operation => [operation]
    | present :: rest, operation =>
      if present.1 = operation.1 then operation :: rest else present :: put rest operation

/-- Combines the directives of two definitions. -/
def combineDirectives (p : ConflictPolicy m) (owner : Name) (left right : List Directive) :
    m (List Directive) :=
  combine (·.name) (p.directive owner) left right

/-- Combines two bodies of one kind; none comes of bodies of different kinds. -/
def combineBodies? (p : ConflictPolicy m) (owner : Name) : TypeBody → TypeBody → Option (m TypeBody)
  | .scalar, .scalar => some (return .scalar)
  | .object is fs, .object js gs => some do
    return .object (unionNames is js) (← combine (·.name) (p.outputField owner) fs gs)
  | .interface is fs, .interface js gs => some do
    return .interface (unionNames is js) (← combine (·.name) (p.outputField owner) fs gs)
  | .union ms, .union ns => some do
    return .union (← combine id (p.unionMember owner) ms ns)
  | .enum vs, .enum ws => some do
    return .enum (← combine (·.name) (p.enumValue owner) vs ws)
  | .input fs, .input gs => some do
    return .input (← combine (·.name) (p.inputField owner) fs gs)
  | _, _ => none

end SchemaStitch.Merge
