/-!
Ordered association lists with text keys. A write to a key that is present keeps its place, a write
to a new key goes to the end, and what was written last is what is read.
-/
namespace SchemaStitch

/-- Keys with their values, in the order in which the keys were first written. -/
abbrev Assoc (α : Type) := List (String × α)

namespace Assoc

variable {α : Type}

/-- The value of a key. -/
def get? : Assoc α → String → Option α
  | [], _ => none
  | (k, v) :: rest, key => if k = key then some v else get? rest key

/-- Whether a key has a value. -/
def has (m : Assoc α) (key : String) : Bool := (get? m key).isSome

/-- Writes a value in the place of its key, or at the end. -/
def insert : Assoc α → String → α → Assoc α
  | [], key, value => [(key, value)]
  | (k, v) :: rest, key, value =>
    if k = key then (k, value) :: rest else (k, v) :: insert rest key value

/-- Drops a key. -/
def erase : Assoc α → String → Assoc α
  | [], _ => []
  | (k, v) :: rest, key => if k = key then rest else (k, v) :: erase rest key

/-- Writes every pair of the second list into the first, in order. -/
def overlay (m later : Assoc α) : Assoc α :=
  later.foldl (fun acc (k, v) => insert acc k v) m

/-- The list that writing the given pairs in order makes. -/
def ofList (pairs : List (String × α)) : Assoc α := overlay [] pairs

/-- The keys, in order. -/
def keys (m : Assoc α) : List String := m.map (·.1)

/-- A write is read back under its key and changes no other. -/
@[simp] theorem get?_insert (m : Assoc α) (key : String) (value : α) (other : String) :
    get? (insert m key value) other = if key = other then some value else get? m other := by
  induction m with
  | nil => rfl
  | cons pair rest ih =>
    by_cases here : pair.1 = key <;> by_cases there : pair.1 = other <;> grind [insert, get?]

/-- A write leaves the keys as they are, but for a new one at the end. -/
theorem keys_insert (m : Assoc α) (key : String) (value : α) :
    keys (insert m key value) = if key ∈ keys m then keys m else keys m ++ [key] := by
  induction m with
  | nil => rfl
  | cons pair rest ih =>
    by_cases here : pair.1 = key <;> grind [insert, keys]

/-- Dropping a key changes no other. -/
theorem get?_erase_of_ne (m : Assoc α) {key other : String} (differ : key ≠ other) :
    get? (erase m key) other = get? m other := by
  induction m with
  | nil => rfl
  | cons pair rest ih => by_cases here : pair.1 = key <;> grind [erase, get?]

end Assoc
end SchemaStitch
