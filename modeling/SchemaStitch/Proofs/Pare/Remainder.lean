import SchemaStitch.Proofs.Pare.Takes

/-! What paring leaves of a document, definition by definition. In what is left of a definition only
the definition with its key in the right document has a part. What a merge brings in or writes over is
named there, so paring takes it again, and paring a merge by its right side leaves what paring the left
side leaves. -/
namespace SchemaStitch
open Sdl Merge

namespace Merge

section
variable {α β κ : Type} [DecidableEq κ] {ident : α → Option κ} {f : α → α → α} {P : α → Prop}
  {g : α → Option β}

theorem filterMap_placed {x : α} {l : List α} (brought : g x = none)
    (settled : ∀ y ∈ l, ∀ k, ident x = some k → ident y = some k → g (f y x) = g y) :
    (placed ident f x l).filterMap g = l.filterMap g := by
  rcases placed_cases ident f x l with last | ⟨k, before, y, after, rfl, known, like, taken⟩
  · simp [last, brought]
  · have same := settled y (by simp) k known like
    simp only [taken, List.filterMap_append, List.filterMap_cons, same]

/-- Bringing items into a list makes no difference to what is taken from it if nothing is taken from
the items and settling with them changes nothing of what is taken. -/
theorem filterMap_placedAll {left right : List α}
    (inside : ∀ y x k, ident y = some k → ident x = some k → P y → P x → P (f y x))
    (brought : ∀ x ∈ right, g x = none)
    (settled : ∀ y, ∀ x ∈ right, ∀ k, ident x = some k → ident y = some k → P y → g (f y x) = g y)
    (all : ∀ y ∈ left, P y) (own : ∀ x ∈ right, P x) :
    (placedAll ident f left right).filterMap g = left.filterMap g := by
  induction right generalizing left with
  | nil => rfl
  | cons x rest ih =>
    have placed_inside := forall_placed inside all (own x List.mem_cons_self)
    calc (placedAll ident f (placed ident f x left) rest).filterMap g
        = (placed ident f x left).filterMap g :=
          ih (fun y member => brought y (List.mem_cons_of_mem x member))
            (fun y z member => settled y z (List.mem_cons_of_mem x member)) placed_inside
            fun y member => own y (List.mem_cons_of_mem x member)
      _ = left.filterMap g :=
          filterMap_placed (brought x List.mem_cons_self) fun y member k known like =>
            settled y x List.mem_cons_self k known like (all y member)

/-- What is written over a list goes again with what it is written over. -/
theorem filter_written (name : α → κ) (left right : List α) :
    (written name left right).filter (fun x => !(right.map name).contains (name x)) =
      left.filter fun x => !(right.map name).contains (name x) := by
  have named {x : α} (member : name x ∈ right.map name) :
      Option.guard (fun x => !(right.map name).contains (name x)) x = none := by
    simpa [Option.guard] using member
  rw [← List.filterMap_eq_filter]
  refine filterMap_placedAll (P := fun _ => True) (fun _ _ _ _ _ _ _ => trivial)
    (fun x member => named (List.mem_map_of_mem member)) (fun y x member k known like _ => ?_)
    (by simp) (by simp)
  have same : name y = name x := Option.some.inj (like.trans known.symm)
  rw [named (List.mem_map_of_mem member), named (same ▸ List.mem_map_of_mem member)]

end
end Merge

namespace Pare

/-- What is left of a definition when a document is taken that defines everything once. -/
def remainder (right : Document) (l : Definition) : Option Definition :=
  match counterpart identity right l with
  | none => some l
  | some r => (definition l r).left l

theorem remainder_alone {right : Document} {l : Definition}
    (alone : counterpart identity right l = none) : remainder right l = some l := by
  rw [remainder, alone]

theorem remainder_of_mem {right : Document} (once : (right.filterMap identity).Nodup)
    {l r : Definition} {k : Definition.Key} (member : r ∈ right) (known : identity l = some k)
    (like : identity r = some k) : remainder right l = (definition l r).left l := by
  rw [remainder, counterpart_of_nodup once member known like]

theorem remainder_single (r l : Definition) :
    remainder [r] l = if r.key.matches l.key then (definition l r).left l else some l := by
  split
  · rename_i same
    have like := matches_iff.mp same
    obtain ⟨k, known⟩ := Option.isSome_iff_exists.mp like.1
    refine remainder_of_mem ?_ List.mem_cons_self (like.2.trans known) known
    simp [known]
  · rename_i other
    refine remainder_alone (counterpart_eq_none.mpr fun k known member => other ?_)
    obtain ⟨own, stands, like⟩ := List.mem_filterMap.mp member
    rw [List.mem_singleton.mp stands] at like
    exact matches_iff.mpr ⟨by simp [like], known.trans like.symm⟩

/-- Taking one definition and then those of a document leaves what taking them all does. -/
theorem remainder_cons {r : Definition} {later : Document}
    (once : ((r :: later).filterMap identity).Nodup) (l : Definition) :
    (remainder [r] l).bind (remainder later) = remainder (r :: later) l := by
  rw [remainder_single]
  split
  · rename_i same
    have like := matches_iff.mp same
    obtain ⟨k, known⟩ := Option.isSome_iff_exists.mp like.1
    have l_known := like.2.trans known
    rw [remainder_of_mem once List.mem_cons_self l_known known]
    -- What is left has the key of the first definition, and the later ones have other keys.
    cases left : (definition l r).left l with
    | none => rfl
    | some d =>
      rw [List.filterMap_cons_some known, List.nodup_cons] at once
      refine remainder_alone (counterpart_eq_none.mpr fun own d_known member => ?_)
      rw [identity_left left, l_known] at d_known
      cases d_known
      exact once.1 member
  · rename_i other
    have apart (k : Definition.Key) (known : identity l = some k) : identity r ≠ some k :=
      fun like => other (matches_iff.mpr ⟨by simp [like], known.trans like.symm⟩)
    rw [Option.bind_some, remainder, remainder, counterpart_cons_apart apart]

theorem subtract_eq {left : Document} (once : (left.filterMap identity).Nodup) (roots : List Name)
    (r : Definition) (map : ResolverMap) :
    (subtract roots r left map).1 = left.filterMap (remainder [r]) := by
  have untouched {l : List Definition} (apart : ∀ x ∈ l, r.key.matches x.key = false) :
      l.filterMap (remainder [r]) = l := by
    have alone : ∀ x ∈ l, remainder [r] x = some x := fun x member => by
      simp [remainder_single, apart x member]
    rw [List.filterMap_congr alone, List.filterMap_some]
  rcases subtract_cases roots r left map with ⟨same, apart, _⟩ | ⟨before, l, after, rfl, same, _, made⟩
  · rw [same, untouched apart]
  · have like := matches_iff.mp same
    obtain ⟨k, known⟩ := Option.isSome_iff_exists.mp like.1
    have others (x : Definition) (member : x ∈ before ∨ x ∈ after) :
        r.key.matches x.key = false := by
      have unlike := unlike_of_nodup once (like.2.trans known) member
      simpa [known] using mt (fun other => (matches_iff.mp other).2) (known ▸ unlike)
    rw [made, List.filterMap_append, untouched fun x member => others x (Or.inl member),
      List.filterMap_cons, untouched fun x member => others x (Or.inr member), remainder_single,
      if_pos same]
    cases definition l r <;> rfl

theorem subtractAll_eq {left right : Document} (left_once : (left.filterMap identity).Nodup)
    (right_once : (right.filterMap identity).Nodup) (roots : List Name) (map : ResolverMap) :
    (subtractAll roots right left map).1 = left.filterMap (remainder right) := by
  induction right generalizing left map with
  | nil =>
    have alone : ∀ x ∈ left, remainder [] x = some x := fun x _ =>
      remainder_alone (counterpart_eq_none.mpr fun _ _ => List.not_mem_nil)
    rw [List.filterMap_congr alone, List.filterMap_some]
    rfl
  | cons r rest ih =>
    have rest_once := right_once.sublist ((List.sublist_cons_self r rest).filterMap identity)
    rw [subtractAll, ih (once_subtract left_once map) rest_once, subtract_eq left_once,
      List.filterMap_filterMap]
    exact List.filterMap_congr fun l _ => remainder_cons right_once l

end Pare

namespace Sdl

/-- A body without the interfaces that it implements. -/
def TypeBody.bare : TypeBody → TypeBody
  | .object _ fields => .object [] fields
  | .interface _ fields => .interface [] fields
  | body => body

/-- A definition without its description and the interfaces that it implements. -/
def Definition.bare : Definition → Definition
  | .schema s => .schema { s with description := none }
  | .type t => .type { t with description := none, body := t.body.bare }
  | d => d

theorem TypeBody.memberNames_bare (body : TypeBody) : body.bare.memberNames = body.memberNames := by
  cases body <;> rfl

end Sdl

namespace Pare

theorem leftOver_bare {t u l d : _} {names : List Name} {rest own : TypeBody}
    (named : t.name = u.name)
    (directives : without Directive.name t.directives names =
      without Directive.name u.directives names)
    (bodies : rest.bare = own.bare) :
    ((leftOver t names rest).left l).map Definition.bare =
      ((leftOver u names own).left d).map Definition.bare := by
  have members : rest.memberNames = own.memberNames := by
    rw [← rest.memberNames_bare, bodies, own.memberNames_bare]
  rw [leftOver, leftOver, members]
  split
  · rfl
  · simp only [Outcome.left, Option.map_some, Definition.bare, named, directives, bodies]

theorem without_written {α : Type} (name : α → Name) (left right : List α) :
    without name (written name left right) (right.map name) = without name left (right.map name) :=
  filter_written name left right

theorem left_updated_type (t u : TypeDefinition) (kinds : t.body.kind = u.body.kind) :
    ((definition (updated (.type t) (.type u)) (.type u)).left (updated (.type t) (.type u))).map
        Definition.bare = ((definition (.type t) (.type u)).left (.type t)).map Definition.bare := by
  obtain ⟨about, name, ds, body⟩ := t
  obtain ⟨other, own, es, members⟩ := u
  have directives := without_written Directive.name ds es
  rw [updated, if_pos kinds]
  cases body with
  | scalar =>
    cases members with
    | scalar => rfl
    | _ => cases kinds
  | object is fs =>
    cases members with
    | object js gs =>
      have fields := without_written Field.name fs gs
      exact leftOver_bare rfl directives (congrArg (TypeBody.object []) fields)
    | _ => cases kinds
  | interface is fs =>
    cases members with
    | interface js gs =>
      have fields := without_written Field.name fs gs
      exact leftOver_bare rfl directives (congrArg (TypeBody.interface []) fields)
    | _ => cases kinds
  | union ms =>
    cases members with
    | union ns =>
      have names := without_written id ms ns
      rw [List.map_id] at names
      exact leftOver_bare rfl directives (congrArg TypeBody.union names)
    | _ => cases kinds
  | enum vs =>
    cases members with
    | enum ws =>
      have values := without_written EnumValue.name vs ws
      exact leftOver_bare rfl directives (congrArg TypeBody.enum values)
    | _ => cases kinds
  | input fs =>
    cases members with
    | input gs =>
      have fields := without_written InputField.name fs gs
      exact leftOver_bare rfl directives (congrArg TypeBody.input fields)
    | _ => cases kinds

/-- Writing a definition over another one of its kind and taking it leaves, but for the description
and the interfaces, what taking it from the other one leaves. -/
theorem left_updated {l r : Definition} (l_whole : l.Whole) (r_whole : r.Whole)
    (same : l.kind = r.kind) :
    ((definition (updated l r) r).left (updated l r)).map Definition.bare =
      ((definition l r).left l).map Definition.bare := by
  cases l with
  | schema a =>
    cases r with
    | schema b =>
      have operations := filter_written Prod.fst a.operations b.operations
      have directives := without_written Directive.name a.directives b.directives
      simp only [updated, definition, operations, directives]
      split <;> rfl
    | schemaExtension => cases r_whole
    | _ => cases same
  | type a =>
    cases r with
    | type b => exact left_updated_type a b (Definition.Kind.type.inj same)
    | typeExtension => cases r_whole
    | _ => cases same
  | directive =>
    cases r with
    | directive => rfl
    | _ => cases same
  | operation =>
    cases r with
    | operation => rfl
    | _ => cases same
  | fragment =>
    cases r with
    | fragment => rfl
    | _ => cases same
  | schemaExtension | typeExtension => cases l_whole

theorem without_self {α : Type} (name : α → Name) (items : List α) :
    without name items (items.map name) = [] := by
  rw [without, List.filter_eq_nil_iff]
  intro x member
  simpa using ⟨x, member, rfl⟩

/-- Nothing is left of a definition when it is taken from itself. -/
theorem definition_self {d : Definition} (whole : d.Whole) : definition d d = .removed := by
  cases d with
  | schema s =>
    have operations : (s.operations.filter fun o => !(s.operations.map (·.1)).contains o.1) = [] := by
      rw [List.filter_eq_nil_iff]
      intro o member
      simpa using ⟨o.2, member⟩
    simp only [definition, operations, List.isEmpty_nil, if_true]
  | type t =>
    obtain ⟨about, name, ds, body⟩ := t
    cases body with
    | scalar => rfl
    | union ms =>
      have names := without_self id ms
      rw [List.map_id] at names
      simp [definition, leftOver, TypeBody.memberNames, names]
    | object _ items | interface _ items | enum items | input items =>
      simp only [definition, leftOver, TypeBody.memberNames, without_self, List.map_nil,
        List.isEmpty_nil, if_true]
  | schemaExtension | typeExtension => cases whole
  | _ => rfl

theorem remainder_self {right : Document} (once : (right.filterMap identity).Nodup) {r : Definition}
    (member : r ∈ right) (whole : r.Whole) (named : r.key ≠ .executable none) :
    remainder right r = none := by
  have known : identity r = some r.key := if_neg named
  rw [remainder_of_mem once member known known, definition_self whole]
  rfl

end Pare

namespace Sdl.Document

variable {a b : Document}

theorem pare_eq (map : ResolverMap) :
    (a.pare b map).1 = a.consolidated.filterMap (Pare.remainder b.consolidated) :=
  Pare.subtractAll_eq (nodup_consolidated a) (nodup_consolidated b) _ map

theorem pare_self (named : ∀ x ∈ b, x.key ≠ .executable none) (map : ResolverMap) :
    (b.pare b map).1 = [] := by
  rw [pare_eq, List.filterMap_eq_nil_iff]
  exact fun x member => Pare.remainder_self (nodup_consolidated b) member
    (whole_consolidated b x member) (named_consolidated named x member)

theorem pare_merged_bare (named : ∀ x ∈ b, x.key ≠ .executable none)
    (kinds : ∀ x ∈ a.consolidated, ∀ y ∈ b.consolidated, x.key = y.key → x.kind = y.kind)
    (map other : ResolverMap) :
    ((merged a b).pare b map).1.map Definition.bare = (a.pare b other).1.map Definition.bare := by
  have once := nodup_consolidated b
  have b_named := named_consolidated named
  rw [pare_eq, pare_eq, consolidated_merged, List.map_filterMap, List.map_filterMap, merged]
  refine filterMap_placedAll
    (P := fun x => x.Whole ∧ ∀ y ∈ b.consolidated, x.key = y.key → x.kind = y.kind)
    (fun x y k left right x_fits y_fits => ?_) (fun y member => ?_)
    (fun x y member k right left x_fits => ?_)
    (fun x member => ⟨whole_consolidated a x member, kinds x member⟩)
    (fun x member => ⟨whole_consolidated b x member, fun y y_member same => ?_⟩)
  · refine ⟨updated_whole x_fits.1 y_fits.1, fun z member same => ?_⟩
    have keys := keys_of_identity left right
    rw [updated_key keys] at same
    rw [updated_kind]
    exact y_fits.2 z member (keys.symm.trans same)
  · rw [Pare.remainder_self once member (whole_consolidated b y member) (b_named y member)]
    rfl
  · have keys := keys_of_identity left right
    have known : identity (updated x y) = some k := by
      rw [identity, updated_key keys]
      exact left
    rw [Pare.remainder_of_mem once member known right, Pare.remainder_of_mem once member left right]
    exact Pare.left_updated x_fits.1 (whole_consolidated b y member) (x_fits.2 y member keys)
  · -- The definitions of one document with one key are one definition.
    have known := identity_eq_some.mpr ⟨same, b_named y y_member⟩
    have own := counterpart_of_nodup once member known known
    have found := counterpart_of_nodup once y_member known
      (identity_eq_some.mpr ⟨rfl, b_named y y_member⟩)
    rw [Option.some.inj (own.symm.trans found)]

theorem consolidated_alone (apart : ∀ x ∈ a, ∀ y ∈ b, x.key ≠ y.key) :
    ∀ x ∈ a.consolidated, counterpart identity b.consolidated x = none := by
  intro x member
  refine counterpart_eq_none.mpr fun k known stands => ?_
  obtain ⟨y, y_member, like⟩ := List.mem_filterMap.mp stands
  obtain ⟨u, u_member, u_key⟩ :=
    List.mem_map.mp (mem_keys_consolidated.mp (List.mem_map_of_mem member))
  obtain ⟨v, v_member, v_key⟩ :=
    List.mem_map.mp (mem_keys_consolidated.mp (List.mem_map_of_mem y_member))
  exact apart u u_member v v_member
    ((u_key.trans (keys_of_identity known like)).trans v_key.symm)

theorem merged_apart (apart : ∀ x ∈ a, ∀ y ∈ b, x.key ≠ y.key) :
    merged a b = a.consolidated ++ b.consolidated := by
  have nodup : ((a.consolidated ++ b.consolidated).filterMap identity).Nodup := by
    rw [List.filterMap_append, List.nodup_append]
    refine ⟨nodup_consolidated a, nodup_consolidated b, fun k left k' right => ?_⟩
    obtain ⟨x, member, known⟩ := List.mem_filterMap.mp left
    rintro rfl
    exact counterpart_eq_none.mp (consolidated_alone apart x member) k known right
  have fresh : placeAll identity (fun x y => (pure (updated x y) : Id Definition)) a.consolidated
      b.consolidated = pure (a.consolidated ++ b.consolidated) := placeAll_fresh nodup
  rwa [placeAll_pure] at fresh

theorem pare_merged_apart (named : ∀ x ∈ b, x.key ≠ .executable none)
    (apart : ∀ x ∈ a, ∀ y ∈ b, x.key ≠ y.key) (map : ResolverMap) :
    ((merged a b).pare b map).1 = a.consolidated := by
  have stays : ∀ x ∈ a.consolidated, Pare.remainder b.consolidated x = some x := fun x member =>
    Pare.remainder_alone (consolidated_alone apart x member)
  have gone := pare_self named map
  rw [pare_eq] at gone
  rw [pare_eq, consolidated_merged, merged_apart apart, List.filterMap_append, gone, List.append_nil,
    List.filterMap_congr stays, List.filterMap_some]

/-- Paring a merge by its right side leaves what paring the left side by it leaves, but for
descriptions and interfaces, where the later of two items stands and definitions with one key are of
one kind. If the two sides share no key, the left side is left; and nothing is left of a document that
is pared by itself. -/
theorem pare_merge (kinds : ∀ x ∈ a.consolidated, ∀ y ∈ b.consolidated, x.key = y.key → x.kind = y.kind)
    (named : ∀ y ∈ b, y.key ≠ .executable none) (map other : ResolverMap) (m : Type → Type) [Monad m]
    [LawfulMonad m] :
    ∃ whole, a.merge (.keepRight : ConflictPolicy m) b = pure whole ∧
      (whole.pare b map).1.map Definition.bare = (a.pare b other).1.map Definition.bare ∧
      ((∀ x ∈ a, ∀ y ∈ b, x.key ≠ y.key) → (whole.pare b map).1 = a.consolidated) ∧
      (b.pare b map).1 = [] :=
  ⟨merged a b, merge_keepRight a b, pare_merged_bare named kinds map other,
    fun apart => pare_merged_apart named apart map, pare_self named map⟩

theorem pare_merge_members_and_roots :
    (∃ a b : Document, (∀ x ∈ a.consolidated, ∀ y ∈ b.consolidated, x.key = y.key → x.kind = y.kind) ∧
      (∀ y ∈ b, y.key ≠ .executable none) ∧ (a.pare b .nil).1.length = 2 ∧
      ∃ whole, a.merge (.keepRight : ConflictPolicy Id) b = pure whole ∧
        (whole.pare b .nil).1.map Definition.bare = (a.pare b .nil).1.map Definition.bare) ∧
    (∃ a b : Document, (∀ x ∈ a.consolidated, ∀ y ∈ b.consolidated, x.key = y.key → x.kind = y.kind) ∧
      (∀ y ∈ b, y.key ≠ .executable none) ∧ (∀ x ∈ a, ∀ y ∈ b, x.key ≠ y.key) ∧
      ∃ whole, a.merge (.keepRight : ConflictPolicy Id) b = pure whole ∧
        (whole.pare b .nil).1 = a.consolidated ∧ (b.pare b .nil).1 = []) := by
  constructor
  · let a := documentOf
      "schema { query: A mutation: M } type A implements I @d { x: Int y: Int } scalar S"
    let b := documentOf "extend schema { mutation: M } scalar S extend type A implements J @d { y: ID }"
    have kinds : ∀ x ∈ a.consolidated, ∀ y ∈ b.consolidated, x.key = y.key → x.kind = y.kind := by
      decide +kernel
    have named : ∀ y ∈ b, y.key ≠ .executable none := by decide +kernel
    obtain ⟨whole, made, same, _⟩ := pare_merge kinds named .nil .nil Id
    exact ⟨a, b, kinds, named, by decide +kernel, whole, made, same⟩
  · let a := documentOf "type A { x: Int } extend type A { y: Int } { a }"
    let b := documentOf "type B { x: Int } extend enum E { V }"
    have apart : ∀ x ∈ a, ∀ y ∈ b, x.key ≠ y.key := by decide +kernel
    have kinds : ∀ x ∈ a.consolidated, ∀ y ∈ b.consolidated, x.key = y.key → x.kind = y.kind := by
      decide +kernel
    have named : ∀ y ∈ b, y.key ≠ .executable none := by decide +kernel
    obtain ⟨whole, made, _, alone, gone⟩ := pare_merge kinds named .nil .nil Id
    exact ⟨a, b, kinds, named, apart, whole, made, alone apart, gone⟩

end Sdl.Document
end SchemaStitch
