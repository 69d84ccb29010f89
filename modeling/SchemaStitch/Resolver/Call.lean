import SchemaStitch.Json.Basic
import SchemaStitch.Schema.Basic

/-!
Calls of resolvers and the state that resolvers share. A context and the schema slot of a call's
info are shared by every copy of a call, so calls hold their identities and the store holds what is
in them.
-/
namespace SchemaStitch

/-- Where a resolver looks for the active schema: in the info of its call or in the context. -/
inductive Shape where
  | info
  | context
  deriving DecidableEq, Inhabited

/-- A slot for the active schema and its root value. -/
structure Slot where
  schema : Option Schema
  rootValue : Option Json
  deriving Inhabited

/-- The slot that nothing was written to. -/
def Slot.empty : Slot := ⟨none, none⟩

/-- What a context holds: named values, and a slot. -/
structure ContextData where
  entries : Assoc Json
  slot : Slot
  deriving Inhabited

/-- The context that nothing was written to. -/
def ContextData.empty : ContextData := ⟨[], .empty⟩

/-- The identity of a context. -/
structure ContextId where
  index : Nat
  deriving DecidableEq, Inhabited

/-- The identity of the slot of an info. -/
structure SlotId where
  index : Nat
  deriving DecidableEq, Inhabited

/-- The contents of all contexts and of the slots of all infos; identities below `next` are in use.
-/
structure Store where
  contexts : ContextId → ContextData
  slots : SlotId → Slot
  next : Nat

namespace Store

/-- The store in which nothing is in use. -/
def empty : Store := ⟨fun _ => .empty, fun _ => .empty, 0⟩

/-- Writes the contents of a context. -/
def setContext (s : Store) (c : ContextId) (d : ContextData) : Store :=
  { s with contexts := fun x => if x = c then d else s.contexts x }

/-- Writes the contents of a slot. -/
def setSlot (s : Store) (i : SlotId) (d : Slot) : Store :=
  { s with slots := fun x => if x = i then d else s.slots x }

end Store

/-- Steps that read and write the store. -/
abbrev Act := StateM Store

namespace ContextId

/-- A new context without contents. -/
def new : Act ContextId :=
  modifyGet fun s => (⟨s.next⟩, { s.setContext ⟨s.next⟩ .empty with next := s.next + 1 })

/-- The value of a key. -/
def get? (c : ContextId) (key : String) : Act (Option Json) :=
  return Assoc.get? ((← get).contexts c).entries key

/-- Writes the value of a key and answers the value that was there before. -/
def insert (c : ContextId) (key : String) (v : Json) : Act (Option Json) :=
  modifyGet fun s =>
    let d := s.contexts c
    (Assoc.get? d.entries key, s.setContext c { d with entries := Assoc.insert d.entries key v })

/-- Drops a key and answers the value that was there. -/
def remove (c : ContextId) (key : String) : Act (Option Json) :=
  modifyGet fun s =>
    let d := s.contexts c
    (Assoc.get? d.entries key, s.setContext c { d with entries := Assoc.erase d.entries key })

/-- The slot of the context. -/
def slot (c : ContextId) : Act Slot := return ((← get).contexts c).slot

/-- Writes the schema of the context's slot. -/
def setSchema (c : ContextId) (schema : Schema) : Act Unit :=
  modify fun s =>
    let d := s.contexts c
    s.setContext c { d with slot := { d.slot with schema := some schema } }

/-- Writes the root value of the context's slot. -/
def setRoot (c : ContextId) (v : Json) : Act Unit :=
  modify fun s =>
    let d := s.contexts c
    s.setContext c { d with slot := { d.slot with rootValue := some v } }

end ContextId

/-- What a call says about the field it resolves. -/
structure Info where
  parentType : String
  fieldName : String
  path : List String
  slot : SlotId
  deriving Inhabited

namespace Info

/-- The info of a field, with a slot of its own. -/
def new (parentType fieldName : String) : Act Info :=
  modifyGet fun s =>
    (⟨parentType, fieldName, [], ⟨s.next⟩⟩, { s.setSlot ⟨s.next⟩ .empty with next := s.next + 1 })

/-- What the slot holds. -/
def slotData (i : Info) : Act Slot := return (← get).slots i.slot

/-- Writes the schema of the slot. -/
def setSchema (i : Info) (schema : Schema) : Act Unit :=
  modify fun s => s.setSlot i.slot { s.slots i.slot with schema := some schema }

/-- Writes the root value of the slot. -/
def setRoot (i : Info) (v : Json) : Act Unit :=
  modify fun s => s.setSlot i.slot { s.slots i.slot with rootValue := some v }

end Info

/-- One invocation: the parent value, the arguments, the shared context, the info, and, inside a
composition, what the entries before this one have made. -/
structure Call where
  parent : Json
  args : Json.Fields
  context : ContextId
  info : Info
  accumulated : Option Json
  deriving Inhabited

end SchemaStitch
