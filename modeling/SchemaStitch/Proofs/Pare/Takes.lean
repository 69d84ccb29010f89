import SchemaStitch.Proofs.Merge.Consolidated
import SchemaStitch.Proofs.Pare

/-! The resolvers that paring takes, as a list in which the resolver map has no part. A field is on
the list only if it goes from the document, and never twice; so a field that stays keeps the entry in
the branch of its type, and loses what stands flat under its name only to a field of another root. -/
namespace SchemaStitch
open Sdl Merge

namespace Pare

/-- A body that is part of another one. -/
inductive Within : TypeBody → TypeBody → Prop
  | object {is : List Name} {fs gs : List Field} (fields : fs.Sublist gs) :
      Within (.object is fs) (.object is gs)
  | interface {is : List Name} {fs gs : List Field} (fields : fs.Sublist gs) :
      Within (.interface is fs) (.interface is gs)
  | union {ms ns : List Name} (members : ms.Sublist ns) : Within (.union ms) (.union ns)
  | enum {vs ws : List EnumValue} (values : vs.Sublist ws) : Within (.enum vs) (.enum ws)
  | input {fs gs : List InputField} (fields : fs.Sublist gs) : Within (.input fs) (.input gs)

/-- What is left of a definition from which another one is taken. -/
inductive Remains (r : Definition) : Definition → Definition → Prop
  | type {t : TypeDefinition} {directives : List Directive} {body : TypeBody}
      (applied : directives.Sublist t.directives) (within : Within body t.body)
      (untaken : ∀ f ∈ body.fields, f.name ∉ takenFields (.type t) r) :
      Remains r (.type t) (.type { t with directives, body })
  | schema {s : SchemaDefinition} {directives : List Directive}
      {operations : List (OperationKind × Name)} (applied : directives.Sublist s.directives)
      (listed : operations.Sublist s.operations) :
      Remains r (.schema s) (.schema { s with directives, operations })

/-- A field whose resolver is to be taken, and whether it is one of a root. -/
structure Take where
  isRoot : Bool
  type : Name
  field : Name

def Take.place (t : Take) : Name × Name := (t.type, t.field)

def Take.apply (map : ResolverMap) (t : Take) : ResolverMap :=
  takeResolver t.isRoot t.type map t.field

/-- The fields that one definition takes from another. -/
def takesOf (roots : List Name) (r l : Definition) : List Take :=
  (takenFields l r).map fun field => ⟨ownsRoot roots l, owner l, field⟩

/-- The fields that one definition takes from a document. -/
def takesFrom (roots : List Name) (r : Definition) : Document → List Take
  | [] => []
  | l :: rest => if r.key.matches l.key then takesOf roots r l else takesFrom roots r rest

/-- The fields that definitions take one after the other. -/
def allTakes (roots : List Name) : Document → Document → List Take
  | [], _ => []
  | r :: rest, left => takesFrom roots r left ++ allTakes roots rest (subtract roots r left .nil).1

section
variable {roots : List Name} {r : Definition}

theorem subtract_map (left : Document) (map : ResolverMap) :
    (subtract roots r left map).2 = (takesFrom roots r left).foldl Take.apply map := by
  induction left with
  | nil => rfl
  | cons l rest ih =>
    rw [subtract_cons, takesFrom]
    split
    · rw [takesOf, List.foldl_map]
      rfl
    · exact ih

theorem subtractAll_map (right left : Document) (map : ResolverMap) :
    (subtractAll roots right left map).2 = (allTakes roots right left).foldl Take.apply map := by
  induction right generalizing left map with
  | nil => rfl
  | cons r rest ih =>
    rw [subtractAll, allTakes, List.foldl_append, ← subtract_map,
      subtract_document roots r left .nil map]
    exact ih _ _

theorem remains_of_kept {l d : Definition} (kept : definition l r = .kept d) : Remains r l d := by
  have part {α : Type} (name : α → Name) (items : List α) (names : List Name) :
      (without name items names).Sublist items := List.filter_sublist
  have untaken {fs : List Field} {names : List Name} (f : Field)
      (member : f ∈ without (·.name) fs names) : f.name ∉ taken (·.name) fs names := by
    intro named
    have free := (List.mem_filter.mp member).2
    rw [(List.mem_filter.mp named).2] at free
    cases free
  cases l with
  | type t =>
    cases r with
    | type u =>
      have left_over {names : List Name} {rest : TypeBody} (within : Within rest t.body)
          (free : ∀ f ∈ rest.fields, f.name ∉ takenFields (.type t) (.type u))
          (kept : leftOver t names rest = .kept d) : Remains (.type u) (.type t) d := by
        rw [leftOver] at kept
        split at kept
        · cases kept
        · cases kept
          exact .type (part _ _ _) within free
      obtain ⟨_, _, _, body⟩ := t
      obtain ⟨_, _, _, other⟩ := u
      cases body <;> cases other <;> try cases kept
      · exact left_over (.object (part _ _ _)) (fun f => untaken f) kept
      · exact left_over (.interface (part _ _ _)) (fun f => untaken f) kept
      · exact left_over (.union (part _ _ _)) (by simp [TypeBody.fields]) kept
      · exact left_over (.enum (part _ _ _)) (by simp [TypeBody.fields]) kept
      · exact left_over (.input (part _ _ _)) (by simp [TypeBody.fields]) kept
    | _ => cases kept
  | schema s =>
    cases r with
    | schema u =>
      simp only [definition] at kept
      split at kept
      · cases kept
      · cases kept
        exact .schema (part _ _ _) List.filter_sublist
    | _ => cases kept
  | _ => cases r <;> cases kept

theorem takenFields_of_mismatch {l : Definition} (mismatch : definition l r = .mismatch) :
    takenFields l r = [] := by
  cases l with
  | type t =>
    cases r with
    | type u =>
      obtain ⟨_, _, _, body⟩ := t
      obtain ⟨_, _, _, other⟩ := u
      cases body <;> cases other <;> try rfl
      all_goals
        simp only [definition, leftOver] at mismatch
        split at mismatch <;> cases mismatch
    | _ => rfl
  | _ => rfl

/-- A field that is taken is one of the object or interface from which it is taken. -/
theorem gives_of_taken {l : Definition} {field : Name} (member : field ∈ takenFields l r) :
    ∃ t, l = .type t ∧ l.Gives (t.name, field) t.body.kind := by
  have own {fs : List Field} {names : List Name} (member : field ∈ taken (·.name) fs names) :
      field ∈ fs.map (·.name) := (List.mem_filter.mp member).1
  cases l with
  | type t =>
    cases r with
    | type u =>
      obtain ⟨_, _, _, body⟩ := t
      obtain ⟨_, _, _, other⟩ := u
      cases body <;> cases other <;> try cases member
      · exact ⟨_, rfl, rfl, rfl, own member⟩
      · exact ⟨_, rfl, rfl, rfl, own member⟩
    | _ => cases member
  | _ => cases member

theorem Within.kind {body whole : TypeBody} (within : Within body whole) :
    body.kind = whole.kind := by
  cases within <;> rfl

theorem Within.fields {body whole : TypeBody} (within : Within body whole) :
    body.fields.Sublist whole.fields := by
  cases within with
  | object fields => exact fields
  | interface fields => exact fields
  | _ => exact .slnil

theorem Within.memberNames {body whole : TypeBody} (within : Within body whole) :
    body.memberNames.Sublist whole.memberNames := by
  cases within with
  | object fields => exact fields.map _
  | interface fields => exact fields.map _
  | union members => exact members
  | enum values => exact values.map _
  | input fields => exact fields.map _

theorem Remains.key {l d : Definition} (remains : Remains r l d) : d.key = l.key := by
  cases remains <;> rfl

theorem Remains.memberNames {l d : Definition} (remains : Remains r l d) :
    d.memberNames.Sublist l.memberNames := by
  cases remains with
  | type applied within untaken => exact within.memberNames
  | schema => exact .slnil

theorem Remains.gives {l d : Definition} (remains : Remains r l d) {place : Name × Name}
    {kind : TypeKind} (gives : d.Gives place kind) :
    l.Gives place kind ∧ place.2 ∉ takenFields l r := by
  cases remains with
  | type applied within untaken =>
    obtain ⟨named, own_kind, member⟩ := gives
    obtain ⟨f, f_member, same⟩ := List.mem_map.mp member
    rw [← same]
    refine ⟨⟨named, within.kind.symm.trans own_kind, ?_⟩, untaken f f_member⟩
    exact List.mem_map.mpr ⟨f, within.fields.mem f_member, same⟩
  | schema => cases gives

/-- A definition stays as it is, something of it is left, or it goes. -/
theorem subtract_cases (roots : List Name) (r : Definition) (left : Document) (map : ResolverMap) :
    (subtract roots r left map).1 = left ∧ (∀ l ∈ left, r.key.matches l.key = false) ∧
        takesFrom roots r left = [] ∨
      ∃ before l after, left = before ++ l :: after ∧ r.key.matches l.key = true ∧
        takesFrom roots r left = takesOf roots r l ∧
        (subtract roots r left map).1 = before ++ (definition l r).apply l after := by
  induction left with
  | nil => exact Or.inl ⟨rfl, by simp, rfl⟩
  | cons l rest ih =>
    rw [subtract_cons, takesFrom]
    split
    · rename_i same
      exact Or.inr ⟨[], l, rest, rfl, same, rfl, rfl⟩
    · rename_i other
      have other : r.key.matches l.key = false := by simpa using other
      rcases ih with ⟨kept, apart, none⟩ | ⟨before, m, after, rfl, same, takes, made⟩
      · refine Or.inl ⟨by rw [kept], fun x member => ?_, none⟩
        rcases List.mem_cons.mp member with rfl | member
        · exact other
        · exact apart x member
      · exact Or.inr ⟨l :: before, m, after, rfl, same, takes, by rw [made]; rfl⟩

/-- Definitions with another key than the one that is taken stay. -/
theorem mem_subtract {left : Document} {map : ResolverMap} {x : Definition}
    (apart : r.key ≠ x.key) : x ∈ (subtract roots r left map).1 ↔ x ∈ left := by
  rcases subtract_cases roots r left map with ⟨same, _⟩ | ⟨before, l, after, rfl, like, _, made⟩
  · rw [same]
  · have like := matches_iff.mp like
    obtain ⟨k, known⟩ := Option.isSome_iff_exists.mp like.1
    have own : l.key = r.key := keys_of_identity (like.2.trans known) known
    have other : x ≠ l := fun same => apart (by rw [same, own])
    rw [made]
    cases outcome : definition l r with
    | removed => simp [Outcome.apply, other]
    | mismatch => rfl
    | kept d =>
      have gone : x ≠ d := fun same =>
        apart (by rw [same, (remains_of_kept outcome).key, own])
      simp [Outcome.apply, other, gone]

theorem mem_subtractAll {right left : Document} {map : ResolverMap} {x : Definition}
    (apart : ∀ r ∈ right, r.key ≠ x.key) : x ∈ (subtractAll roots right left map).1 ↔ x ∈ left := by
  induction right generalizing left map with
  | nil => rfl
  | cons r rest ih =>
    rw [subtractAll, ih fun u member => apart u (List.mem_cons_of_mem r member)]
    exact mem_subtract (apart r List.mem_cons_self)

/-- A document that defines everything once, with members of distinct names. -/
structure Single (d : Document) : Prop where
  once : (d.filterMap identity).Nodup
  distinct : ∀ x ∈ d, x.Distinct .members

theorem keys_apart {before after : Document} {l x : Definition} {name : Name}
    (once : ((before ++ l :: after).filterMap identity).Nodup) (own : l.key = .type name)
    (member : x ∈ before ∨ x ∈ after) : x.key ≠ .type name := fun same =>
  unlike_of_nodup once (identity_eq_some.mpr ⟨own, by simp⟩) member
    (identity_eq_some.mpr ⟨same, by simp⟩)

theorem key_of_gives {x : Definition} {place : Name × Name} {kind : TypeKind}
    (gives : x.Gives place kind) : x.key = .type place.1 := by
  cases x with
  | type t => exact congrArg Definition.Key.type gives.1
  | typeExtension t => exact congrArg Definition.Key.type gives.1
  | _ => cases gives

/-- What an outcome leaves of a definition. -/
def Outcome.left (l : Definition) : Outcome → Option Definition
  | .kept d => some d
  | .removed => none
  | .mismatch => some l

theorem Outcome.apply_eq (l : Definition) (rest : Document) (o : Outcome) :
    o.apply l rest = (o.left l).toList ++ rest := by
  cases o <;> rfl

theorem remains_of_left {l d : Definition} (left : (definition l r).left l = some d) :
    d = l ∨ Remains r l d := by
  cases outcome : definition l r with
  | kept own =>
    rw [outcome] at left
    cases left
    exact Or.inr (remains_of_kept outcome)
  | removed => simp [outcome, Outcome.left] at left
  | mismatch =>
    rw [outcome] at left
    cases left
    exact Or.inl rfl

theorem identity_left {l d : Definition} (left : (definition l r).left l = some d) :
    identity d = identity l := by
  rcases remains_of_left left with rfl | remains
  · rfl
  · rw [identity, identity, remains.key]

theorem memberNames_left {l d : Definition} (left : (definition l r).left l = some d) :
    d.memberNames.Sublist l.memberNames := by
  rcases remains_of_left left with rfl | remains
  · exact .refl _
  · exact remains.memberNames

theorem once_subtract {left : Document} (once : (left.filterMap identity).Nodup)
    (map : ResolverMap) : ((subtract roots r left map).1.filterMap identity).Nodup := by
  rcases subtract_cases roots r left map with ⟨same, _⟩ | ⟨before, l, after, rfl, _, _, made⟩
  · rwa [same]
  · rw [made, Outcome.apply_eq]
    cases left : (definition l r).left l with
    | none =>
      have part : (before ++ after).Sublist (before ++ l :: after) :=
        (List.Sublist.refl before).append (List.sublist_cons_self l after)
      exact once.sublist (part.filterMap identity)
    | some d =>
      have same := identity_left left
      simpa [List.filterMap_append, List.filterMap_cons, same] using once

theorem Single.subtract {left : Document} (single : Single left) (map : ResolverMap) :
    Single (subtract roots r left map).1 := by
  refine ⟨once_subtract single.once map, fun x member => ?_⟩
  rcases subtract_cases roots r left map with ⟨same, _⟩ | ⟨before, l, after, rfl, _, _, made⟩
  · exact single.distinct x (same ▸ member)
  · rw [made, Outcome.apply_eq] at member
    rcases List.mem_append.mp member with member | member
    · exact single.distinct x (List.mem_append_left _ member)
    · rcases List.mem_append.mp member with member | member
      · exact (single.distinct l (by simp)).sublist (memberNames_left (Option.mem_toList.mp member))
      · exact single.distinct x (by simp [member])

/-- Fields that are left were there before, and their resolvers are not taken. -/
theorem subtract_gives {left : Document} (single : Single left) {map : ResolverMap}
    {place : Name × Name} {kind : TypeKind}
    (said : Document.Says Definition.Gives (subtract roots r left map).1 place kind) :
    left.Says Definition.Gives place kind ∧ ∀ t ∈ takesFrom roots r left, t.place ≠ place := by
  rcases subtract_cases roots r left map with
    ⟨same, _, none⟩ | ⟨before, l, after, rfl, _, takes, made⟩
  · rw [same] at said
    exact ⟨said, by simp [none]⟩
  rw [made] at said
  rw [takes]
  obtain ⟨x, member, gives⟩ := said
  have aside (beside : x ∈ before ∨ x ∈ after) :
      Document.Says Definition.Gives (before ++ l :: after) place kind ∧
        ∀ t ∈ takesOf roots r l, t.place ≠ place := by
    refine ⟨⟨x, by rcases beside with beside | beside <;> simp [beside], gives⟩, ?_⟩
    rintro t chosen rfl
    obtain ⟨field, named, rfl⟩ := List.mem_map.mp chosen
    obtain ⟨own, rfl, _⟩ := gives_of_taken named
    exact keys_apart single.once rfl beside (key_of_gives gives)
  rcases List.mem_append.mp member with member | member
  · exact aside (Or.inl member)
  · cases outcome : definition l r with
    | removed =>
      rw [outcome] at member
      exact aside (Or.inr member)
    | mismatch =>
      rw [outcome] at member
      refine ⟨⟨x, List.mem_append_right _ member, gives⟩, ?_⟩
      simp [takesOf, takenFields_of_mismatch outcome]
    | kept d =>
      rw [outcome] at member
      rcases List.mem_cons.mp member with rfl | member
      · obtain ⟨gave, untaken⟩ := (remains_of_kept outcome).gives gives
        refine ⟨⟨l, by simp, gave⟩, ?_⟩
        rintro t chosen rfl
        obtain ⟨field, named, rfl⟩ := List.mem_map.mp chosen
        exact untaken named
      · exact aside (Or.inr member)

theorem subtractAll_gives (right : Document) {left : Document} (single : Single left)
    {map : ResolverMap} {place : Name × Name} {kind : TypeKind}
    (said : Document.Says Definition.Gives (subtractAll roots right left map).1 place kind) :
    left.Says Definition.Gives place kind ∧ ∀ t ∈ allTakes roots right left, t.place ≠ place := by
  induction right generalizing left map with
  | nil => exact ⟨said, by simp [allTakes]⟩
  | cons r rest ih =>
    rw [subtractAll] at said
    obtain ⟨first, later⟩ := ih (single.subtract map) said
    obtain ⟨gave, now⟩ := subtract_gives single first
    refine ⟨gave, fun t member => ?_⟩
    rw [allTakes, subtract_document roots r left .nil map] at member
    exact (List.mem_append.mp member).elim (now t) (later t)

/-- What is taken from a document is a field of a type with the key of what takes it. -/
theorem takesFrom_origin {left : Document} {t : Take} (member : t ∈ takesFrom roots r left) :
    r.key = .type t.type ∧
      (t.isRoot = true → t.type ∈ roots ∧ left.Says Definition.Gives t.place .object) := by
  rcases subtract_cases roots r left .nil with ⟨_, _, none⟩ | ⟨before, l, after, rfl, same, takes, _⟩
  · simp [none] at member
  rw [takes] at member
  obtain ⟨field, chosen, rfl⟩ := List.mem_map.mp member
  obtain ⟨own, rfl, gives⟩ := gives_of_taken chosen
  have like := matches_iff.mp same
  obtain ⟨k, known⟩ := Option.isSome_iff_exists.mp like.1
  refine ⟨keys_of_identity known (like.2.trans known), fun root => ?_⟩
  obtain ⟨description, name, directives, body⟩ := own
  cases body with
  | object is fs => exact ⟨List.contains_iff_mem.mp root, _, by simp, gives⟩
  | _ => cases root

theorem allTakes_origin {right left : Document} (single : Single left) {t : Take}
    (member : t ∈ allTakes roots right left) :
    (∃ r ∈ right, r.key = .type t.type) ∧
      (t.isRoot = true → t.type ∈ roots ∧ left.Says Definition.Gives t.place .object) := by
  induction right generalizing left with
  | nil => cases member
  | cons r rest ih =>
    rcases List.mem_append.mp member with now | later
    · obtain ⟨same, root⟩ := takesFrom_origin now
      exact ⟨⟨r, List.mem_cons_self, same⟩, root⟩
    · obtain ⟨⟨other, stands, same⟩, root⟩ := ih (single.subtract .nil) later
      refine ⟨⟨other, List.mem_cons_of_mem _ stands, same⟩, fun is_root => ?_⟩
      exact ⟨(root is_root).1, (subtract_gives single (root is_root).2).1⟩

theorem nodup_takesFrom {left : Document} (single : Single left) :
    ((takesFrom roots r left).map Take.place).Nodup := by
  rcases subtract_cases roots r left .nil with ⟨_, _, none⟩ | ⟨before, l, after, rfl, _, takes, _⟩
  · simp [none]
  · have distinct := single.distinct l (by simp)
    have fields : (takenFields l r).Nodup := by
      cases l with
      | type t =>
        cases r with
        | type u =>
          obtain ⟨_, _, _, body⟩ := t
          obtain ⟨_, _, _, other⟩ := u
          cases body <;> cases other <;> first | exact List.nodup_nil | exact List.Nodup.filter _ distinct
        | _ => exact List.nodup_nil
      | _ => exact List.nodup_nil
    rw [takes, takesOf, List.map_map]
    exact fields.map fun a b same => congrArg Prod.snd same

/-- No resolver is taken twice. -/
theorem nodup_allTakes {right left : Document} (once : (right.filterMap identity).Nodup)
    (single : Single left) : ((allTakes roots right left).map Take.place).Nodup := by
  induction right generalizing left with
  | nil => exact List.nodup_nil
  | cons r rest ih =>
    have rest_once := once.sublist ((List.sublist_cons_self r rest).filterMap identity)
    rw [allTakes, List.map_append, List.nodup_append]
    refine ⟨nodup_takesFrom single, ih rest_once (single.subtract .nil), ?_⟩
    rintro _ now _ later rfl
    obtain ⟨t, t_member, same⟩ := List.mem_map.mp now
    obtain ⟨u, u_member, like⟩ := List.mem_map.mp later
    obtain ⟨own, _⟩ := takesFrom_origin t_member
    obtain ⟨⟨other, stands, key⟩, _⟩ := allTakes_origin (single.subtract .nil) u_member
    have types : u.type = t.type := congrArg Prod.fst (like.trans same.symm)
    rw [types] at key
    rw [← List.nil_append (r :: rest)] at once
    exact keys_apart once own (Or.inr stands) key

end

section
variable {map : ResolverMap}

theorem find?_of_flat? {field next : Name} (flat : (map.flat? field).isSome = true) :
    map.find? [field, next] = none := by
  rw [KeyTree.find?_eq_bind]
  rw [ResolverMap.flat?] at flat
  cases found : map.get? field with
  | none => rfl
  | some e =>
    cases e with
    | leaf l => rfl
    | branch sub => simp [found, ResolverMap.resolverOf?] at flat

/-- Taking a resolver leaves the entries at other places. -/
theorem find?_apply (keyed : map.Keyed) {t : Take} {place : Name × Name}
    (apart : t.place ≠ place) : (t.apply map).find? [place.1, place.2] =
      map.find? [place.1, place.2] := by
  have removed := keyed.find?_removeAt apart
  have rest_keyed := keyed.removeAt [t.type, t.field]
  rw [Take.apply, takeResolver]
  change ((map.removeAt [t.type, t.field]).1).find? _ = _ at removed
  generalize map.removeAt [t.type, t.field] = taken at removed rest_keyed ⊢
  obtain ⟨rest, answer⟩ := taken
  cases answer with
  | some e => exact removed
  | none =>
    dsimp only at removed rest_keyed ⊢
    split
    · rename_i flat
      rw [rest_keyed.find?_erase, removed]
      intro same
      rw [← same]
      exact find?_of_flat? (Bool.and_eq_true_iff.mp flat).2
    · exact removed

theorem flat?_removeAt (keyed : map.Keyed) (type next field : Name) :
    ResolverMap.flat? (map.removeAt [type, next]).1 field = map.flat? field := by
  rw [ResolverMap.flat?, ResolverMap.flat?, KeyTree.get?_removeAt keyed]
  split
  · rename_i same
    rw [← same]
    cases map.get? type with
    | none => rfl
    | some e =>
      cases e with
      | leaf l => rfl
      | branch sub =>
        rw [Option.bind_some, KeyTree.Entry.less]
        split <;> rfl
  · rfl

/-- Taking a resolver leaves what stands flat, unless the field is one of a root that has no entry
in the branch of its type. -/
theorem flat?_apply (keyed : map.Keyed) (t : Take) (field : Name) :
    (t.apply map).flat? field = map.flat? field ∨
      (t.isRoot = true ∧ t.field = field ∧ map.find? [t.type, field] = none) := by
  have kept := flat?_removeAt keyed t.type t.field field
  have answered := KeyTree.removeAt_answer [t.type, t.field] map
  have rest_keyed := keyed.removeAt [t.type, t.field]
  rw [Take.apply, takeResolver]
  generalize map.removeAt [t.type, t.field] = taken at kept answered rest_keyed ⊢
  obtain ⟨rest, answer⟩ := taken
  cases answer with
  | some e => exact Or.inl kept
  | none =>
    dsimp only at kept answered rest_keyed ⊢
    split
    · rename_i flat
      by_cases same : t.field = field
      · subst field
        exact Or.inr ⟨(Bool.and_eq_true_iff.mp flat).1, rfl, answered.symm⟩
      · refine Or.inl ?_
        rw [← kept, ResolverMap.flat?, ResolverMap.flat?, rest_keyed.get?_erase, if_neg same]
    · exact Or.inl kept

theorem keyed_apply (keyed : map.Keyed) (t : Take) : (t.apply map).Keyed :=
  (takeResolver_less t.isRoot t.type keyed t.field).keyed

theorem find?_takes {takes : List Take} (keyed : map.Keyed) {place : Name × Name}
    (apart : ∀ t ∈ takes, t.place ≠ place) :
    (takes.foldl Take.apply map).find? [place.1, place.2] = map.find? [place.1, place.2] := by
  induction takes generalizing map with
  | nil => rfl
  | cons t rest ih =>
    rw [List.foldl_cons, ih (keyed_apply keyed t) fun u member => apart u (by simp [member])]
    exact find?_apply keyed (apart t List.mem_cons_self)

theorem flat?_takes {takes : List Take} (keyed : map.Keyed)
    (nodup : (takes.map Take.place).Nodup) (field : Name) :
    (takes.foldl Take.apply map).flat? field = map.flat? field ∨
      ∃ t ∈ takes, t.isRoot = true ∧ t.field = field ∧ map.find? [t.type, field] = none := by
  induction takes generalizing map with
  | nil => exact Or.inl rfl
  | cons t rest ih =>
    obtain ⟨fresh, nodup⟩ := List.nodup_cons.mp nodup
    rcases flat?_apply keyed t field with same | taken
    · rcases ih (keyed_apply keyed t) nodup with kept | ⟨u, member, root, rfl, bare⟩
      · exact Or.inl (kept.trans same)
      · -- What was taken first stood at another place.
        have apart : t.place ≠ u.place := fun like =>
          fresh (List.mem_map.mpr ⟨u, member, like.symm⟩)
        have before := find?_apply keyed apart
        exact Or.inr ⟨u, List.mem_cons_of_mem _ member, root, rfl, before.symm.trans bare⟩
    · exact Or.inr ⟨t, List.mem_cons_self, taken⟩

end
end Pare

namespace Sdl.Document

theorem single_consolidated {d : Document} (distinct : ∀ x ∈ d, x.Distinct .members) :
    Pare.Single d.consolidated := ⟨nodup_consolidated d, distinct_consolidated distinct⟩

/-- A field that paring leaves stood there before. It keeps the entry in the branch of its type, and
what stands flat under its name, unless paring takes a field of that name from a root that has no
entry for it in the branch of its type. -/
theorem pare_keeps {left right : Document} {map : ResolverMap} (keyed : map.Keyed)
    (distinct : ∀ x ∈ left, x.Distinct .members) {type field : Name} {kind : TypeKind}
    (stands : Document.Says Definition.Gives (left.pare right map).1 (type, field) kind) :
    left.consolidated.Says Definition.Gives (type, field) kind ∧
      (left.pare right map).2.resolver? type field = map.resolver? type field ∧
      ((left.pare right map).2.flat? field = map.flat? field ∨
        ∃ other ∈ Pare.rootNames left.consolidated,
          left.consolidated.Says Definition.Gives (other, field) .object ∧
          (∀ kind, ¬ Document.Says Definition.Gives (left.pare right map).1 (other, field) kind) ∧
          map.find? [other, field] = none) := by
  have single := single_consolidated distinct
  obtain ⟨stood, untaken⟩ := Pare.subtractAll_gives right.consolidated single stands
  have taken : (left.pare right map).2 =
      (Pare.allTakes (Pare.rootNames left.consolidated) right.consolidated
        left.consolidated).foldl Pare.Take.apply map := Pare.subtractAll_map _ _ _
  refine ⟨stood, ?_, ?_⟩
  · have kept := Pare.find?_takes keyed untaken
    rw [taken, ResolverMap.resolver?, ResolverMap.resolver?]
    exact congrArg (·.bind ResolverMap.resolverOf?) kept
  · rw [taken]
    refine (Pare.flat?_takes keyed (Pare.nodup_allTakes (nodup_consolidated right) single)
      field).imp id ?_
    rintro ⟨t, member, root, rfl, bare⟩
    obtain ⟨_, of_root⟩ := Pare.allTakes_origin single member
    obtain ⟨is_root, gave⟩ := of_root root
    refine ⟨t.type, is_root, gave, fun kind still => ?_, bare⟩
    exact (Pare.subtractAll_gives right.consolidated single still).2 t member rfl

end Sdl.Document
end SchemaStitch
