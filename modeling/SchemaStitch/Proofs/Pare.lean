import SchemaStitch.Pare
import SchemaStitch.Proofs.Bundle.Binding

/-! Paring takes entries out of a resolver map and adds none. A field that paring takes from an
object has no entry in the branch of its type afterwards, and a flat resolver of its name only if
its type was no root or such an entry stood before it. -/
namespace SchemaStitch
open Sdl

/-- What is left of a key tree when entries are taken out of it. -/
structure KeyTree.Less {α : Type} (after before : KeyTree α) : Prop where
  keyed : after.Keyed
  leaves : ∀ path v, after.leaf? path = some v → before.leaf? path = some v
  entries : ∀ path, after.find? path ≠ none → before.find? path ≠ none

namespace KeyTree.Less

variable {α : Type} {t u v : KeyTree α}

theorem refl (keyed : t.Keyed) : t.Less t := ⟨keyed, fun _ _ => id, fun _ => id⟩

theorem trans (later : v.Less u) (before : u.Less t) : v.Less t :=
  ⟨later.keyed, fun path l found => before.leaves path l (later.leaves path l found),
    fun path stands => before.entries path (later.entries path stands)⟩

theorem erase (keyed : t.Keyed) (key : String) : (t.erase key).Less t :=
  ⟨keyed.erase key, fun _ _ => leaf?_of_erase keyed, fun _ => find?_of_erase keyed⟩

theorem removeAt (keyed : t.Keyed) (path : List String) : (t.removeAt path).1.Less t :=
  ⟨keyed.removeAt path, fun _ _ => leaf?_of_removeAt keyed, fun _ => find?_of_removeAt keyed⟩

end KeyTree.Less

/-- Whether an object type of a document has a field. -/
def Sdl.Document.HasObjectField (d : Document) (type field : Name) : Prop :=
  ∃ t is fs, .type t ∈ d ∧ t.name = type ∧ t.body = .object is fs ∧ field ∈ fs.map (·.name)

instance (d : Document) (type field : Name) : Decidable (d.HasObjectField type field) :=
  decidable_of_iff
    (d.any fun
      | .type ⟨_, name, _, .object _ fs⟩ => name == type && (fs.map (·.name)).contains field
      | _ => false) (by
    rw [List.any_eq_true]
    constructor
    · rintro ⟨definition, member, named⟩
      split at named
      · rename_i description name directives is fs
        simp only [Bool.and_eq_true, beq_iff_eq, List.contains_iff_mem] at named
        exact ⟨_, is, fs, member, named.1, rfl, named.2⟩
      · contradiction
    · rintro ⟨⟨description, name, directives, body⟩, is, fs, member, rfl, rfl, named⟩
      refine ⟨_, member, ?_⟩
      simp only [beq_self_eq_true, Bool.true_and]
      rwa [List.contains_iff_mem])

namespace Pare

/-- What holds of the resolver map once the resolver of a field has been taken. -/
structure Gone (isRoot : Bool) (type field : Name) (before after : ResolverMap) : Prop where
  typed : after.leaf? [type, field] = none
  flat : ∀ l, after.leaf? [field] = some l →
    isRoot = false ∨ before.find? [type, field] ≠ none ∨ ∃ v, l = .value v

theorem Gone.later {isRoot : Bool} {type field : Name} {before after last : ResolverMap}
    (gone : Gone isRoot type field before after) (less : last.Less after) :
    Gone isRoot type field before last := by
  constructor
  · cases found : last.leaf? [type, field] with
    | none => rfl
    | some l =>
      have stands := less.leaves _ _ found
      rw [gone.typed] at stands
      contradiction
  · intro l found
    exact gone.flat l (less.leaves _ _ found)

theorem Gone.earlier {isRoot : Bool} {type field : Name} {first before after : ResolverMap}
    (gone : Gone isRoot type field before after) (less : before.Less first) :
    Gone isRoot type field first after := by
  refine ⟨gone.typed, ?_⟩
  intro l found
  rcases gone.flat l found with plain | stands | value
  · exact Or.inl plain
  · exact Or.inr (Or.inl (less.entries _ stands))
  · exact Or.inr (Or.inr value)

theorem takeResolver_less (isRoot : Bool) (type : Name) {map : ResolverMap} (keyed : map.Keyed)
    (field : Name) : (takeResolver isRoot type map field).Less map := by
  have removed := KeyTree.Less.removeAt keyed [type, field]
  rw [takeResolver]
  generalize map.removeAt [type, field] = taken at removed ⊢
  obtain ⟨rest, answer⟩ := taken
  cases answer with
  | some e => exact removed
  | none =>
    dsimp only
    split
    · exact (KeyTree.Less.erase removed.keyed field).trans removed
    · exact removed

theorem takeResolver_gone (isRoot : Bool) (type : Name) {map : ResolverMap} (keyed : map.Keyed)
    (field : Name) : Gone isRoot type field map (takeResolver isRoot type map field) := by
  have removed := KeyTree.Less.removeAt keyed [type, field]
  have typed := KeyTree.leaf?_removeAt keyed [type, field]
  have answered := KeyTree.removeAt_answer [type, field] map
  rw [takeResolver]
  generalize map.removeAt [type, field] = taken at removed typed answered ⊢
  obtain ⟨rest, answer⟩ := taken
  cases answer with
  | some e =>
    refine ⟨typed, fun l found => Or.inr (Or.inl ?_)⟩
    rw [← answered]
    simp
  | none =>
    dsimp only at removed typed ⊢
    -- Nothing stood in the branch of the type, so what stands flat for a root is taken.
    split
    · have bare : Gone false type field map rest := ⟨typed, fun _ _ => Or.inl rfl⟩
      refine ⟨(bare.later (KeyTree.Less.erase removed.keyed field)).typed, ?_⟩
      intro l found
      rw [KeyTree.leaf?_eq_bind, removed.keyed.get?_erase_self] at found
      contradiction
    · rename_i kept
      refine ⟨typed, fun l found => ?_⟩
      rw [ResolverMap.flat?_eq_leaf?, found] at kept
      cases isRoot with
      | false => exact Or.inl rfl
      | true =>
        cases l with
        | resolver r => simp [Leaf.resolver?] at kept
        | value v => exact Or.inr (Or.inr ⟨v, rfl⟩)

theorem takeAll_less (isRoot : Bool) (type : Name) (fields : List Name) {map : ResolverMap}
    (keyed : map.Keyed) : (fields.foldl (takeResolver isRoot type) map).Less map := by
  induction fields generalizing map with
  | nil => exact .refl keyed
  | cons field rest ih =>
    have first := takeResolver_less isRoot type keyed field
    exact (ih first.keyed).trans first

theorem takeAll_gone (isRoot : Bool) (type : Name) {fields : List Name} {field : Name}
    (member : field ∈ fields) {map : ResolverMap} (keyed : map.Keyed) :
    Gone isRoot type field map (fields.foldl (takeResolver isRoot type) map) := by
  induction fields generalizing map with
  | nil => simp at member
  | cons other rest ih =>
    have first := takeResolver_less isRoot type keyed other
    rcases List.mem_cons.mp member with rfl | member
    · exact (takeResolver_gone isRoot type keyed field).later
        (takeAll_less isRoot type rest first.keyed)
    · exact (ih member first.keyed).earlier first

/-- The name of the type that a definition defines. -/
def owner : Definition → Name
  | .type t => t.name
  | _ => ""

/-- Whether a definition is that of an object type that is a root. -/
def ownsRoot (roots : List Name) : Definition → Bool
  | .type ⟨_, name, _, .object ..⟩ => roots.contains name
  | _ => false

/-- Takes the resolvers of the fields that one definition takes from another. -/
def takeFields (roots : List Name) (l r : Definition) (map : ResolverMap) : ResolverMap :=
  (takenFields l r).foldl (takeResolver (ownsRoot roots l) (owner l)) map

/-- What stands in the place of a definition. -/
def Outcome.apply (l : Definition) (rest : Document) : Outcome → Document
  | .kept d => d :: rest
  | .removed => rest
  | .mismatch => l :: rest

theorem subtract_cons (roots : List Name) (r l : Definition) (rest : Document)
    (map : ResolverMap) :
    subtract roots r (l :: rest) map =
      if r.key.matches l.key then ((definition l r).apply l rest, takeFields roots l r map)
      else (l :: (subtract roots r rest map).1, (subtract roots r rest map).2) := by
  rw [show subtract roots r (l :: rest) map = if r.key.matches l.key then
      match definition l r with
      | .kept d => (d :: rest, takeFields roots l r map)
      | .removed => (rest, takeFields roots l r map)
      | .mismatch => (l :: rest, takeFields roots l r map)
    else (l :: (subtract roots r rest map).1, (subtract roots r rest map).2) from rfl]
  cases definition l r <;> rfl

/-- The resolver map does not decide what is left of the document. -/
theorem subtract_document (roots : List Name) (r : Definition) (left : Document)
    (map other : ResolverMap) : (subtract roots r left map).1 = (subtract roots r left other).1 := by
  induction left with
  | nil => rfl
  | cons l rest ih =>
    rw [subtract_cons, subtract_cons]
    split
    · rfl
    · exact congrArg (l :: ·) ih

theorem subtract_less (roots : List Name) (r : Definition) (left : Document) {map : ResolverMap}
    (keyed : map.Keyed) : (subtract roots r left map).2.Less map := by
  induction left with
  | nil => exact .refl keyed
  | cons l rest ih =>
    rw [subtract_cons]
    split
    · exact takeAll_less _ _ _ keyed
    · exact ih

/-- Of two object types, the first keeps the fields that the second does not name. -/
theorem keeps_field {t u : TypeDefinition} {is js : List Name} {fs gs : List Field}
    (object : t.body = .object is fs) (other : u.body = .object js gs) (rest : Document)
    {field : Name} (stood : field ∈ fs.map (·.name)) (unnamed : field ∉ gs.map (·.name)) :
    Document.HasObjectField ((definition (.type t) (.type u)).apply (.type t) rest) t.name
      field := by
  obtain ⟨f, member, rfl⟩ := List.mem_map.mp stood
  have kept : f ∈ without (·.name) fs (gs.map (·.name)) := by
    rw [without, List.mem_filter]
    exact ⟨member, by simpa using unnamed⟩
  have full : (TypeBody.object is (without (·.name) fs (gs.map (·.name)))).memberNames.isEmpty =
      false := by
    rw [TypeBody.memberNames, List.isEmpty_eq_false_iff]
    exact List.ne_nil_of_mem (List.mem_map_of_mem kept)
  have outcome : definition (.type t) (.type u) =
      .kept (.type { t with
        directives := without (·.name) t.directives (u.directives.map (·.name))
        body := .object is (without (·.name) fs (gs.map (·.name))) }) := by
    rw [definition, object, other]
    simp only [TypeBody.memberNames] at full ⊢
    rw [leftOver, TypeBody.memberNames, full]
    rfl
  rw [outcome]
  exact ⟨_, _, _, List.mem_cons_self, rfl, rfl, List.mem_map_of_mem kept⟩

/-- A field that goes when one definition is taken from another is among the fields taken. -/
theorem field_taken {t : TypeDefinition} {is : List Name} {fs : List Field} {r : Definition}
    {rest : Document} {field : Name} (object : t.body = .object is fs)
    (stood : field ∈ fs.map (·.name))
    (goes : ¬ Document.HasObjectField ((definition (.type t) r).apply (.type t) rest) t.name field) :
    field ∈ takenFields (.type t) r := by
  have mismatch (unlike : definition (.type t) r = .mismatch) : False := by
    rw [unlike] at goes
    exact goes ⟨t, is, fs, List.mem_cons_self, rfl, object, stood⟩
  cases r with
  | type u =>
    cases other : u.body with
    | object js gs =>
      rw [takenFields, object, other]
      refine List.mem_filter.mpr ⟨stood, ?_⟩
      rw [List.contains_iff_mem]
      exact Classical.byContradiction fun unnamed => goes (keeps_field object other rest stood unnamed)
    | _ => exact (mismatch (by simp only [definition, object, other])).elim
  | _ => exact (mismatch rfl).elim

theorem subtract_gone (roots : List Name) (r : Definition) {left : Document} {map : ResolverMap}
    (keyed : map.Keyed) {type field : Name} (stood : left.HasObjectField type field)
    (goes : ¬ (subtract roots r left map).1.HasObjectField type field) :
    Gone (roots.contains type) type field map (subtract roots r left map).2 := by
  induction left with
  | nil =>
    obtain ⟨t, is, fs, member, _⟩ := stood
    simp at member
  | cons l rest ih =>
    obtain ⟨t, is, fs, member, rfl, object, named⟩ := stood
    rw [subtract_cons] at goes ⊢
    split
    · rename_i same
      rw [if_pos same] at goes
      rcases List.mem_cons.mp member with rfl | member
      · have taken := field_taken object named goes
        have root : ownsRoot roots (.type t) = roots.contains t.name := by
          obtain ⟨_, name, _, body⟩ := t
          subst object
          rfl
        rw [← root]
        exact takeAll_gone _ _ taken keyed
      · refine absurd ⟨t, is, fs, ?_, rfl, object, named⟩ goes
        cases definition l r <;> simp [Outcome.apply, member]
    · rename_i other
      rw [if_neg other] at goes
      rcases List.mem_cons.mp member with rfl | member
      · exact absurd ⟨t, is, fs, List.mem_cons_self, rfl, object, named⟩ goes
      · refine ih ⟨t, is, fs, member, rfl, object, named⟩ fun stands => goes ?_
        obtain ⟨u, js, gs, stands, facts⟩ := stands
        exact ⟨u, js, gs, List.mem_cons_of_mem _ stands, facts⟩

theorem subtractAll_less (roots : List Name) (right left : Document) {map : ResolverMap}
    (keyed : map.Keyed) : (subtractAll roots right left map).2.Less map := by
  induction right generalizing left map with
  | nil => exact .refl keyed
  | cons r rest ih =>
    have first := subtract_less roots r left keyed
    exact (ih _ first.keyed).trans first

theorem subtractAll_document (roots : List Name) (right left : Document) (map other : ResolverMap) :
    (subtractAll roots right left map).1 = (subtractAll roots right left other).1 := by
  induction right generalizing left map other with
  | nil => rfl
  | cons r rest ih =>
    have same := ih (subtract roots r left map).1 (subtract roots r left map).2
      (subtract roots r left other).2
    rw [subtract_document roots r left map other] at same
    rw [subtractAll, subtractAll, ← same, ← subtract_document roots r left map other]

theorem subtractAll_gone (roots : List Name) (right : Document) {left : Document}
    {map : ResolverMap} (keyed : map.Keyed) {type field : Name}
    (stood : left.HasObjectField type field)
    (goes : ¬ (subtractAll roots right left map).1.HasObjectField type field) :
    Gone (roots.contains type) type field map (subtractAll roots right left map).2 := by
  induction right generalizing left map with
  | nil => exact absurd stood goes
  | cons r rest ih =>
    have first := subtract_less roots r left keyed
    rw [subtractAll] at goes ⊢
    by_cases still : (subtract roots r left map).1.HasObjectField type field
    · exact (ih first.keyed still goes).earlier first
    · exact (subtract_gone roots r keyed stood still).later
        (subtractAll_less roots rest _ first.keyed)

end Pare

namespace Sdl.Document

theorem pare_less (left right : Document) {map : ResolverMap} (keyed : map.Keyed) :
    (left.pare right map).2.Less map := Pare.subtractAll_less _ _ _ keyed

theorem pare_document (left right : Document) (map other : ResolverMap) :
    (left.pare right map).1 = (left.pare right other).1 := Pare.subtractAll_document _ _ _ _ _

/-- Paring takes the resolver of every object field that it takes from the document. -/
theorem pare_gone (left right : Document) {map : ResolverMap} (keyed : map.Keyed)
    {type field : Name} (stood : left.consolidated.HasObjectField type field)
    (goes : ¬ (left.pare right map).1.HasObjectField type field) :
    Pare.Gone ((Pare.rootNames left.consolidated).contains type) type field map
      (left.pare right map).2 := Pare.subtractAll_gone _ _ keyed stood goes

end Sdl.Document
end SchemaStitch
