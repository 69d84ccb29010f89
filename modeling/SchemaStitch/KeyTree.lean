/-!
Trees of keyed entries: each entry is a leaf or a branch with entries of its own, and entries keep
the order in which their keys were first written. Writing, removing and laying one tree over another
are stated entry by entry.
-/
namespace SchemaStitch

/-- Entries in order; a leaf holds a value and a branch holds a tree. -/
inductive KeyTree (α : Type) where
  | nil
  | leaf (key : String) (value : α) (rest : KeyTree α)
  | branch (key : String) (sub : KeyTree α) (rest : KeyTree α)
  deriving DecidableEq, Inhabited

namespace KeyTree

variable {α β : Type}

/-- An entry by itself. -/
inductive Entry (α : Type) where
  | leaf (value : α)
  | branch (sub : KeyTree α)
  deriving DecidableEq, Inhabited

/-- Puts an entry in front of a tree. -/
def cons (key : String) : Entry α → KeyTree α → KeyTree α
  | .leaf v, rest => .leaf key v rest
  | .branch sub, rest => .branch key sub rest

/-- Whether there are no entries. -/
def isEmpty : KeyTree α → Bool
  | .nil => true
  | _ => false

/-- The entries with their keys, in order. -/
def entries : KeyTree α → List (String × Entry α)
  | .nil => []
  | .leaf k v rest => (k, .leaf v) :: rest.entries
  | .branch k sub rest => (k, .branch sub) :: rest.entries

/-- The keys, in order. -/
def keys : KeyTree α → List String
  | .nil => []
  | .leaf k _ rest => k :: rest.keys
  | .branch k _ rest => k :: rest.keys

/-- How many entries there are, without those of branches. -/
def size (t : KeyTree α) : Nat := t.keys.length

/-- How many leaves of the whole tree pass a test. -/
def countLeaves (test : α → Bool) : KeyTree α → Nat
  | .nil => 0
  | .leaf _ v rest => (if test v then 1 else 0) + rest.countLeaves test
  | .branch _ sub rest => sub.countLeaves test + rest.countLeaves test

/-- The entry of a key. -/
def get? : KeyTree α → String → Option (Entry α)
  | .nil, _ => none
  | .leaf k v rest, key => if k = key then some (.leaf v) else rest.get? key
  | .branch k sub rest, key => if k = key then some (.branch sub) else rest.get? key

/-- Writes an entry in the place of its key, or at the end. -/
def insert (key : String) (e : Entry α) : KeyTree α → KeyTree α
  | .nil => cons key e .nil
  | .leaf k v rest => if k = key then cons key e rest else .leaf k v (rest.insert key e)
  | .branch k sub rest => if k = key then cons key e rest else .branch k sub (rest.insert key e)

/-- Drops the entry of a key. -/
def erase (key : String) : KeyTree α → KeyTree α
  | .nil => .nil
  | .leaf k v rest => if k = key then rest else .leaf k v (rest.erase key)
  | .branch k sub rest => if k = key then rest else .branch k sub (rest.erase key)

/-- The tree that writing the given entries in order makes. -/
def ofEntries (es : List (String × Entry α)) : KeyTree α :=
  es.foldl (fun t (k, e) => t.insert k e) .nil

/-- The entry at a path, or the first segment that leads nowhere; the empty path leads nowhere. -/
def find : List String → KeyTree α → Except String (Entry α)
  | [], _ => .error ""
  | [key], t =>
    match t.get? key with
    | some e => .ok e
    | none => .error key
  | key :: path, t =>
    match t.get? key with
    | some (.branch sub) => sub.find path
    | _ => .error key

/-- The entry at a path, if there is one. -/
def find? (path : List String) (t : KeyTree α) : Option (Entry α) := (t.find path).toOption

/-- Changes the branch of a key, which is made, in the place of a leaf or at the end, if there is
none. -/
def within (key : String) (f : KeyTree α → KeyTree α × β) : KeyTree α → KeyTree α × β
  | .nil => let (sub, b) := f .nil; (.branch key sub .nil, b)
  | .leaf k v rest =>
    if k = key then let (sub, b) := f .nil; (.branch key sub rest, b)
    else let (rest, b) := rest.within key f; (.leaf k v rest, b)
  | .branch k sub rest =>
    if k = key then let (sub, b) := f sub; (.branch key sub rest, b)
    else let (rest, b) := rest.within key f; (.branch k sub rest, b)

/-- Writes an entry into the branch at a path, making branches on the way; answers the entry that
was there before. -/
def setAt (key : String) (e : Entry α) : List String → KeyTree α → KeyTree α × Option (Entry α)
  | [], t => (t.insert key e, t.get? key)
  | segment :: path, t => t.within segment (setAt key e path)

/-- Removes the entry at a path and answers it. A branch that is empty once the way has gone through
it is removed too. -/
def removeAt : List String → KeyTree α → KeyTree α × Option (Entry α)
  | [], t => (t, none)
  | [key], t => (t.erase key, t.get? key)
  | key :: path, t =>
    match t.get? key with
    | some (.branch sub) =>
      let (sub, removed) := sub.removeAt path
      (if sub.isEmpty then t.erase key else t.insert key (.branch sub), removed)
    | _ => (t, none)

/-- Lays the second tree over the first: branches of one key are laid over each other, any other
entry of the second tree stands in the place of the entry with its key. -/
def overlay (t : KeyTree α) : KeyTree α → KeyTree α
  | .nil => t
  | .leaf k v rest => (t.insert k (.leaf v)).overlay rest
  | .branch k sub rest =>
    match t.get? k with
    | some (.branch mine) => (t.insert k (.branch (mine.overlay sub))).overlay rest
    | _ => (t.insert k (.branch sub)).overlay rest

/-- An entry put in front is found under its key. -/
@[simp] theorem get?_cons (key : String) (e : Entry α) (t : KeyTree α) (other : String) :
    (cons key e t).get? other = if key = other then some e else t.get? other := by
  cases e <;> rfl

/-- A write is read back under its key and changes no other. -/
@[simp] theorem get?_insert (t : KeyTree α) (key : String) (e : Entry α) (other : String) :
    (t.insert key e).get? other = if key = other then some e else t.get? other := by
  induction t with
  | nil => simp [insert, get?]
  | leaf k v rest ih =>
    by_cases here : k = key
    · grind [insert, get?, get?_cons]
    · grind [insert, get?]
  | branch k sub rest _ ih =>
    by_cases here : k = key
    · grind [insert, get?, get?_cons]
    · grind [insert, get?]

/-- A key put in front comes first. -/
@[simp] theorem keys_cons (key : String) (e : Entry α) (t : KeyTree α) :
    (cons key e t).keys = key :: t.keys := by
  cases e <;> rfl

/-- A write leaves the keys as they are, but for a new one at the end. -/
theorem keys_insert (t : KeyTree α) (key : String) (e : Entry α) :
    (t.insert key e).keys = if key ∈ t.keys then t.keys else t.keys ++ [key] := by
  induction t with
  | nil => simp [insert, keys]
  | leaf k v rest ih => by_cases here : k = key <;> grind [insert, keys, keys_cons]
  | branch k sub rest _ ih => by_cases here : k = key <;> grind [insert, keys, keys_cons]

/-- Removing an entry changes no entry with another key. -/
theorem get?_erase_of_ne (t : KeyTree α) {key other : String} (differ : key ≠ other) :
    (t.erase key).get? other = t.get? other := by
  induction t with
  | nil => rfl
  | leaf k v rest ih => by_cases here : k = key <;> grind [erase, get?]
  | branch k sub rest _ ih => by_cases here : k = key <;> grind [erase, get?]

end KeyTree
end SchemaStitch
