import SchemaStitch.Proofs.Merge.Once

/-! A merge as a union in place. The items of the left side keep their places, those that the right
side has too give way to answers, each asked for once, and what the right side alone has follows in
its order. This holds of the definitions of two documents and of every list of two definitions. -/
namespace SchemaStitch
open Sdl

namespace Merge

section
variable {α κ : Type} [DecidableEq κ] (ident : α → Option κ)

/-- The item of a list with the identity of another item. -/
def counterpart (l : List α) (x : α) : Option α :=
  (ident x).bind fun k => l.find? fun y => ident y = some k

/-- The items that two lists share, in the order of the right one. -/
def shared (left right : List α) : List (α × α) :=
  right.filterMap fun r => (counterpart ident left r).map fun l => (l, r)

/-- The left items, answers in the place of those that they are about, then the right items that are
new. -/
def overwrite (left right answers : List α) : List α :=
  left.map (fun l => (counterpart ident answers l).getD l) ++
    right.filter fun r => (counterpart ident left r).isNone

variable {ident}

theorem counterpart_eq_none {l : List α} {x : α} :
    counterpart ident l x = none ↔ ∀ k, ident x = some k → k ∉ l.filterMap ident := by
  rw [counterpart]
  cases ident x with
  | none => simp
  | some k => simp [List.mem_filterMap]

theorem of_counterpart {l : List α} {x y : α} (found : counterpart ident l x = some y) :
    y ∈ l ∧ ∃ k, ident x = some k ∧ ident y = some k := by
  obtain ⟨k, known, found⟩ := Option.bind_eq_some_iff.mp found
  exact ⟨List.mem_of_find?_eq_some found, k, known, by simpa using List.find?_some found⟩

theorem counterpart_first {before after : List α} {x y : α} {k : κ} (known : ident x = some k)
    (like : ident y = some k) (first : k ∉ before.filterMap ident) :
    counterpart ident (before ++ y :: after) x = some y := by
  have passed : before.find? (fun z => decide (ident z = some k)) = none := by
    rw [List.find?_eq_none]
    intro z member same
    exact first (List.mem_filterMap.mpr ⟨z, member, by simpa using same⟩)
  rw [counterpart, known, Option.bind_some, List.find?_append, passed]
  simp [like]

/-- An item with another identity makes no difference. -/
theorem counterpart_apart {before after : List α} {x y : α}
    (apart : ∀ k, ident x = some k → ident y ≠ some k) :
    counterpart ident (before ++ y :: after) x = counterpart ident (before ++ after) x := by
  rw [counterpart, counterpart]
  cases known : ident x with
  | none => rfl
  | some k => simp [List.find?_append, List.find?_cons, apart k known]

theorem counterpart_cons_apart {rest : List α} {x y : α}
    (apart : ∀ k, ident x = some k → ident y ≠ some k) :
    counterpart ident (y :: rest) x = counterpart ident rest x := by
  change counterpart ident ([] ++ y :: rest) x = counterpart ident ([] ++ rest) x
  exact counterpart_apart apart

theorem counterpart_of_nodup {l : List α} (nodup : (l.filterMap ident).Nodup) {x y : α} {k : κ}
    (member : y ∈ l) (known : ident x = some k) (like : ident y = some k) :
    counterpart ident l x = some y := by
  obtain ⟨before, after, rfl⟩ := List.append_of_mem member
  refine counterpart_first known like fun stands => ?_
  rw [List.filterMap_append, List.nodup_append] at nodup
  exact nodup.2.2 k stands k (List.mem_filterMap.mpr ⟨y, List.mem_cons_self, like⟩) rfl

theorem of_mem_shared {left right : List α} {l r : α} (both : (l, r) ∈ shared ident left right) :
    l ∈ left ∧ r ∈ right ∧ ∃ k, ident l = some k ∧ ident r = some k := by
  obtain ⟨own, member, found⟩ := List.mem_filterMap.mp both
  obtain ⟨other, found, same⟩ := Option.map_eq_some_iff.mp found
  cases same
  obtain ⟨stands, k, right_known, left_known⟩ := of_counterpart found
  exact ⟨stands, member, k, left_known, right_known⟩

theorem counterpart_congr {l : List α} {x y : α} (same : ident x = ident y) :
    counterpart ident l x = counterpart ident l y := by
  rw [counterpart, same, counterpart]

theorem unlike_of_alone {l : List α} {x y : α} (alone : counterpart ident l x = none)
    (member : y ∈ l) {k : κ} (known : ident y = some k) : ident x ≠ some k :=
  fun like => counterpart_eq_none.mp alone k like (List.mem_filterMap.mpr ⟨y, member, known⟩)

theorem shared_alone {before after right : List α} {x : α}
    (alone : counterpart ident right x = none) :
    shared ident (before ++ x :: after) right = shared ident (before ++ after) right := by
  apply List.filterMap_congr
  intro r member
  rw [counterpart_apart fun k known => unlike_of_alone alone member known]

theorem filter_alone {before after right : List α} {x : α}
    (alone : counterpart ident right x = none) :
    (right.filter fun r => (counterpart ident (before ++ x :: after) r).isNone) =
      right.filter fun r => (counterpart ident (before ++ after) r).isNone := by
  apply List.filter_congr
  intro r member
  rw [counterpart_apart fun k known => unlike_of_alone alone member known]

theorem shared_cons {before after rest : List α} {x a r : α} {k : κ}
    (nodup : ((before ++ x :: after).filterMap ident).Nodup) (known : ident r = some k)
    (like : ident x = some k) (answer : ident a = some k)
    (alone : counterpart ident rest r = none) :
    shared ident (before ++ x :: after) (r :: rest) =
      (x, r) :: shared ident (before ++ a :: after) rest := by
  have found : counterpart ident (before ++ x :: after) r = some x :=
    counterpart_of_nodup nodup (by simp) known like
  have x_alone := (counterpart_congr (like.trans known.symm)).trans alone
  have a_alone := (counterpart_congr (answer.trans known.symm)).trans alone
  rw [shared_alone a_alone, ← shared_alone x_alone, shared, List.filterMap_cons, found]
  rfl

/-- An answer in the place of the item that it is about, before or after the other answers. -/
theorem overwrite_cons {before after rest answers : List α} {x a r : α} {k : κ}
    (nodup : ((before ++ x :: after).filterMap ident).Nodup) (known : ident r = some k)
    (like : ident x = some k) (answer : ident a = some k)
    (alone : counterpart ident rest r = none) (unasked : counterpart ident answers a = none) :
    overwrite ident (before ++ x :: after) (r :: rest) (a :: answers) =
      overwrite ident (before ++ a :: after) rest answers := by
  have found : counterpart ident (before ++ x :: after) r = some x :=
    counterpart_of_nodup nodup (by simp) known like
  have x_alone := (counterpart_congr (like.trans known.symm)).trans alone
  have a_alone := (counterpart_congr (answer.trans known.symm)).trans alone
  have unlike : k ∉ (before ++ after).filterMap ident := by
    rw [List.filterMap_append, List.filterMap_cons_some like, List.nodup_middle,
      ← List.filterMap_append] at nodup
    exact (List.nodup_cons.mp nodup).1
  have others : ∀ y ∈ before ++ after, counterpart ident (a :: answers) y =
      counterpart ident answers y := by
    intro y member
    refine counterpart_cons_apart fun k' own same => ?_
    obtain rfl : k = k' := Option.some.inj (answer.symm.trans same)
    exact unlike (List.mem_filterMap.mpr ⟨y, member, own⟩)
  have first : counterpart ident (a :: answers) x = some a := by
    change counterpart ident ([] ++ a :: answers) x = some a
    exact counterpart_first like answer List.not_mem_nil
  have stays (l : List α) (inside : ∀ y ∈ l, y ∈ before ++ after) :
      (l.map fun y => (counterpart ident (a :: answers) y).getD y) =
        l.map fun y => (counterpart ident answers y).getD y :=
    List.map_congr_left fun y member => by rw [others y (inside y member)]
  simp [overwrite, filter_alone x_alone, filter_alone a_alone, found, first, unasked,
    stays before (by simp_all), stays after (by simp_all)]

end

section
variable {σ α κ : Type} [DecidableEq κ] {ident : α → Option κ} {settle : α → α → StateM σ α}

/-- The answers given to what two lists share, and the list that they make. -/
structure Answers (ident : α → Option κ) (settle : α → α → StateM σ α) (left right : List α) (s : σ)
    (answers out : List α) (s' : σ) : Prop where
  run : ((shared ident left right).mapM fun pair => settle pair.1 pair.2).run s = (answers, s')
  about : answers.map ident = (shared ident left right).map fun pair => ident pair.1
  made : out = overwrite ident left right answers

theorem Answers.unasked {left right answers out : List α} {s s' : σ}
    (given : Answers ident settle left right s answers out s') {x : α}
    (alone : counterpart ident right x = none) : counterpart ident answers x = none := by
  refine counterpart_eq_none.mpr fun k known member => ?_
  obtain ⟨a, stands, like⟩ := List.mem_filterMap.mp member
  have about : some k ∈ answers.map ident := List.mem_map.mpr ⟨a, stands, like⟩
  rw [given.about] at about
  obtain ⟨⟨l, r⟩, both, like⟩ := List.mem_map.mp about
  obtain ⟨_, own, k', left_known, right_known⟩ := of_mem_shared both
  obtain rfl : k' = k := Option.some.inj (left_known.symm.trans like)
  exact unlike_of_alone alone own right_known known

/-- A right item that is new is added, and nothing is asked about it. -/
theorem Answers.added {left rest answers out : List α} {r : α} {s s' : σ}
    (fresh : counterpart ident left r = none) (alone : counterpart ident rest r = none)
    (given : Answers ident settle (left ++ [r]) rest s answers out s') :
    Answers ident settle left (r :: rest) s answers out s' := by
  have same : shared ident left (r :: rest) = shared ident (left ++ [r]) rest := by
    rw [shared_alone alone, List.append_nil, shared, List.filterMap_cons, fresh]
    rfl
  have unasked := given.unasked alone
  refine ⟨by rw [same]; exact given.run, by rw [same]; exact given.about, given.made.trans ?_⟩
  simp [overwrite, filter_alone alone, fresh, unasked]

/-- A right item that the left list has is asked about first, and then its answer stands. -/
theorem Answers.answered {before after rest answers out : List α} {k : κ} {x r : α} {s s' : σ}
    (keeps : Keeps ident settle ident) (known : ident r = some k) (like : ident x = some k)
    (nodup : ((before ++ x :: after).filterMap ident).Nodup)
    (alone : counterpart ident rest r = none)
    (given : Answers ident settle (before ++ ((settle x r).run s).1 :: after) rest
      ((settle x r).run s).2 answers out s') :
    Answers ident settle (before ++ x :: after) (r :: rest) s (((settle x r).run s).1 :: answers)
      out s' := by
  have answer : ident ((settle x r).run s).1 = some k := (keeps x r k s like known).2.trans like
  generalize answered : (settle x r).run s = asked at given answer ⊢
  obtain ⟨a, t⟩ := asked
  dsimp only at given answer ⊢
  have same := shared_cons nodup known like answer alone
  have unasked := given.unasked ((counterpart_congr (answer.trans known.symm)).trans alone)
  refine ⟨?_, ?_, given.made.trans (overwrite_cons nodup known like answer alone unasked).symm⟩
  · rw [same, List.mapM_cons]
    change (((settle x r).run s).1 :: (((shared ident (before ++ a :: after) rest).mapM
      fun pair => settle pair.1 pair.2).run ((settle x r).run s).2).1,
      (((shared ident (before ++ a :: after) rest).mapM
      fun pair => settle pair.1 pair.2).run ((settle x r).run s).2).2) = _
    rw [answered, given.run]
  · rw [same, List.map_cons, List.map_cons, given.about, answer, like]

theorem placeAll_answers {left right : List α} (keeps : Keeps ident settle ident)
    (left_nodup : (left.filterMap ident).Nodup) (right_nodup : (right.filterMap ident).Nodup)
    (s : σ) :
    ∃ answers, Answers ident settle left right s answers
      ((placeAll ident settle left right).run s).1
      ((placeAll ident settle left right).run s).2 := by
  induction right generalizing left s with
  | nil =>
    refine ⟨[], rfl, rfl, ?_⟩
    have nothing (x : α) : counterpart ident [] x = none := counterpart_eq_none.mpr (by simp)
    change left = _
    simp [overwrite, nothing]
  | cons r rest ih =>
    have alone : counterpart ident rest r = none := by
      refine counterpart_eq_none.mpr fun k known stands => ?_
      rw [List.filterMap_cons_some known, List.nodup_cons] at right_nodup
      exact right_nodup.1 stands
    have rest_nodup : (rest.filterMap ident).Nodup :=
      right_nodup.sublist ((List.sublist_cons_self r rest).filterMap ident)
    have placed_nodup : (((place ident settle r left).run s).1.filterMap ident).Nodup :=
      nodup_place keeps left_nodup s
    have found := finds_place ident settle r left
    rw [placeAll]
    generalize place ident settle r left = placed at found placed_nodup ⊢
    cases found with
    | last fresh =>
      obtain ⟨answers, given⟩ := ih placed_nodup rest_nodup s
      exact ⟨answers, given.added (counterpart_eq_none.mpr fresh) alone⟩
    | @taken k before after x known like first =>
      -- what is asked next is asked in the state that this answer leaves
      obtain ⟨answers, given⟩ := ih placed_nodup rest_nodup ((settle x r).run s).2
      exact ⟨_, given.answered keeps known like left_nodup alone⟩

/-- How two lists make one: each item that both have is asked about once and its answer stands in
its place, the other left items stay, and the other right items follow, in their orders. -/
structure Settles (ident : α → Option κ) (settle : α → α → StateM σ α) (left right : List α) (s : σ)
    (out : List α) (s' : σ) : Prop where
  each : ∀ l r, (l, r) ∈ shared ident left right ↔
    l ∈ left ∧ r ∈ right ∧ ∃ k, ident l = some k ∧ ident r = some k
  once : ((shared ident left right).map fun pair => ident pair.1).Nodup
  answers : ∃ answers, Answers ident settle left right s answers out s'
  order : out.map ident =
    left.map ident ++ (right.filter fun r => (counterpart ident left r).isNone).map ident
  left_alone : ∀ l ∈ left, counterpart ident right l = none → l ∈ out
  right_alone : ∀ r ∈ right, counterpart ident left r = none → r ∈ out

theorem Answers.order {left right answers out : List α} {s s' : σ}
    (given : Answers ident settle left right s answers out s') :
    out.map ident =
      left.map ident ++ (right.filter fun r => (counterpart ident left r).isNone).map ident := by
  rw [given.made, overwrite, List.map_append, List.map_map]
  congr 1
  apply List.map_congr_left
  intro l _
  cases found : counterpart ident answers l with
  | none => simp [found]
  | some a =>
    obtain ⟨_, k, known, like⟩ := of_counterpart found
    simp [found, known, like]

theorem Answers.left_alone {left right answers out : List α} {s s' : σ}
    (given : Answers ident settle left right s answers out s') {l : α} (member : l ∈ left)
    (alone : counterpart ident right l = none) : l ∈ out := by
  have unasked := given.unasked alone
  rw [given.made]
  exact List.mem_append_left _ (List.mem_map.mpr ⟨l, member, by rw [unasked]; rfl⟩)

theorem Answers.right_alone {left right answers out : List α} {s s' : σ}
    (given : Answers ident settle left right s answers out s') {r : α} (member : r ∈ right)
    (alone : counterpart ident left r = none) : r ∈ out := by
  rw [given.made]
  exact List.mem_append_right _ (List.mem_filter.mpr ⟨member, by rw [alone]; rfl⟩)

theorem once_shared {left right : List α} (nodup : (right.filterMap ident).Nodup) :
    ((shared ident left right).map fun pair => ident pair.1).Nodup := by
  rw [List.Nodup, List.pairwise_map, shared, List.pairwise_filterMap]
  rw [List.Nodup, List.pairwise_filterMap] at nodup
  refine nodup.imp fun {r r'} apart pair found pair' found' same => ?_
  obtain ⟨l, stands, rfl⟩ := Option.map_eq_some_iff.mp found
  obtain ⟨l', stands', rfl⟩ := Option.map_eq_some_iff.mp found'
  obtain ⟨_, k, right_known, left_known⟩ := of_counterpart stands
  obtain ⟨_, k', right_known', left_known'⟩ := of_counterpart stands'
  obtain rfl : k = k' := Option.some.inj (left_known.symm.trans (same.trans left_known'))
  exact apart k right_known k right_known' rfl

theorem placeAll_settles {left right : List α} (keeps : Keeps ident settle ident)
    (left_nodup : (left.filterMap ident).Nodup) (right_nodup : (right.filterMap ident).Nodup)
    (s : σ) :
    Settles ident settle left right s ((placeAll ident settle left right).run s).1
      ((placeAll ident settle left right).run s).2 := by
  obtain ⟨answers, given⟩ := placeAll_answers keeps left_nodup right_nodup s
  refine ⟨fun l r => ⟨of_mem_shared, ?_⟩, once_shared right_nodup, ⟨answers, given⟩, given.order,
    fun l => given.left_alone, fun r => given.right_alone⟩
  rintro ⟨left_member, right_member, k, left_known, right_known⟩
  have found := counterpart_of_nodup left_nodup left_member right_known left_known
  exact List.mem_filterMap.mpr ⟨r, right_member, by rw [found]; rfl⟩

end
end Merge

namespace Sdl

/-- The kinds of definition; an extension is of the kind of what it extends. -/
inductive Definition.Kind where
  | schema
  | type (kind : TypeKind)
  | directive
  | operation
  | fragment
  deriving DecidableEq

namespace Definition

/-- The kind of a definition. -/
def kind : Definition → Kind
  | .schema _ | .schemaExtension _ => .schema
  | .type t | .typeExtension t => .type t.body.kind
  | .directive _ => .directive
  | .operation _ => .operation
  | .fragment _ => .fragment

/-- Whether no two directives, members or root operations of a definition have one name. -/
structure Clear (d : Definition) : Prop where
  directives : d.Distinct .directives
  members : d.Distinct .members
  operations : d.Distinct .operations

instance (d : Definition) : Decidable d.Clear :=
  decidable_of_iff
    (d.Distinct .directives ∧ d.Distinct .members ∧ d.Distinct .operations)
    ⟨fun ⟨directives, members, operations⟩ => ⟨directives, members, operations⟩,
      fun clear => ⟨clear.directives, clear.members, clear.operations⟩⟩

end Definition
end Sdl

/-- A field of an object or interface, if a field in conflict is one. -/
def FieldNode.output? : FieldNode → Option Field
  | .output f => some f
  | .input _ => none

/-- A field of an input object, if a field in conflict is one. -/
def FieldNode.input? : FieldNode → Option InputField
  | .input f => some f
  | .output _ => none

namespace Merge

variable {σ : Type} {p : ConflictPolicy (StateM σ)}

/-- Asks about two fields of an object or interface by one question. The right one stands where the
answer is a field of the other kind. -/
def askOutput (p : ConflictPolicy (StateM σ)) (owner : Name) (left right : Field) :
    StateM σ Field := do
  let answer ← p.field owner (.output left) (.output right)
  return answer.output?.getD right

/-- Asks about two fields of an input object by one question. The right one stands where the answer
is a field of the other kind. -/
def askInput (p : ConflictPolicy (StateM σ)) (owner : Name) (left right : InputField) :
    StateM σ InputField := do
  let answer ← p.field owner (.input left) (.input right)
  return answer.input?.getD right

/-- How two bodies of one kind make one. -/
inductive Bodies (p : ConflictPolicy (StateM σ)) (owner : Name) :
    TypeBody → TypeBody → σ → TypeBody → σ → Prop
  | scalar {s : σ} : Bodies p owner .scalar .scalar s .scalar s
  | object {is js ks : List Name} {fs gs hs : List Field} {s s' : σ}
      (names : ks = (is ++ js).eraseDups)
      (fields : Settles (named Field.name) (askOutput p owner) fs gs s hs s') :
      Bodies p owner (.object is fs) (.object js gs) s (.object ks hs) s'
  | interface {is js ks : List Name} {fs gs hs : List Field} {s s' : σ}
      (names : ks = (is ++ js).eraseDups)
      (fields : Settles (named Field.name) (askOutput p owner) fs gs s hs s') :
      Bodies p owner (.interface is fs) (.interface js gs) s (.interface ks hs) s'
  | union {ms ns os : List Name} {s s' : σ}
      (members : Settles (named id) (p.unionMember owner) ms ns s os s') :
      Bodies p owner (.union ms) (.union ns) s (.union os) s'
  | enum {vs ws us : List EnumValue} {s s' : σ}
      (values : Settles (named EnumValue.name) (p.enumValue owner) vs ws s us s') :
      Bodies p owner (.enum vs) (.enum ws) s (.enum us) s'
  | input {fs gs hs : List InputField} {s s' : σ}
      (fields : Settles (named InputField.name) (askInput p owner) fs gs s hs s') :
      Bodies p owner (.input fs) (.input gs) s (.input hs) s'

/-- How two definitions with one key make one. -/
inductive Unites (p : ConflictPolicy (StateM σ)) :
    Definition → Definition → σ → Definition → σ → Prop
  | schema {a b : SchemaDefinition} {ds : List Directive} {os : List (OperationKind × Name)}
      {s s' : σ}
      (directives : Settles (named Directive.name) (p.directive "schema") a.directives b.directives
        s ds s')
      (operations : Settles (named Prod.fst) (fun _ own => pure own) a.operations b.operations
        s' os s') :
      Unites p (.schema a) (.schema b) s (.schema ⟨a.description <|> b.description, ds, os⟩) s'
  | type {a b : TypeDefinition} {ds : List Directive} {body : TypeBody} {s t s' : σ}
      (directives : Settles (named Directive.name) (p.directive a.name) a.directives b.directives
        s ds t)
      (bodies : Bodies p a.name a.body b.body t body s') :
      Unites p (.type a) (.type b) s (.type ⟨a.description <|> b.description, a.name, ds, body⟩) s'
  | directive {a b : DirectiveDefinition} {s : σ} :
      Unites p (.directive a) (.directive b) s (.directive a) s
  | operation {a b : Operation} {s : σ} : Unites p (.operation a) (.operation b) s (.operation a) s
  | fragment {a b : Fragment} {s : σ} : Unites p (.fragment a) (.fragment b) s (.fragment a) s
  | kinds {l r : Definition} {s : σ} (differ : l.kind ≠ r.kind) : Unites p l r s r s

theorem collect_eq_eraseDups (seen names : List Name) :
    unionNames.collect seen names =
      seen ++ (names.filter fun n => !seen.contains n).eraseDups := by
  induction names generalizing seen with
  | nil => simp [unionNames.collect]
  | cons n rest ih =>
    rw [unionNames.collect]
    by_cases known : seen.contains n
    · rw [if_pos known, ih, List.filter_cons_of_neg (by simpa using known)]
    · have later : (rest.filter fun m => !(seen ++ [n]).contains m) =
          (rest.filter fun m => !seen.contains m).filter fun m => !m == n := by
        rw [List.filter_filter]
        apply List.filter_congr
        intro m _
        by_cases same : m = n <;> simp [same]
      rw [if_neg known, ih, later, List.filter_cons_of_pos (by simpa using known),
        List.eraseDups_cons, List.append_assoc]
      rfl

theorem unionNames_eq_eraseDups (left right : List Name) :
    unionNames left right = (left ++ right).eraseDups := by
  rw [unionNames, collect_eq_eraseDups]
  simp

theorem combine_settles {α : Type} {name : α → Name} {ask : α → α → StateM σ α}
    (keeps : Keeps (named name) ask (named name)) {left right : List α}
    (left_nodup : (left.map name).Nodup) (right_nodup : (right.map name).Nodup) (s : σ) :
    Settles (named name) ask left right s ((combine name ask left right).run s).1
      ((combine name ask left right).run s).2 := by
  rw [← filterMap_named] at left_nodup right_nodup
  rw [combine_eq_placeAll]
  exact placeAll_settles keeps left_nodup right_nodup s

theorem combineOperations_settles {left right : List (OperationKind × Name)}
    (left_nodup : (left.map Prod.fst).Nodup) (right_nodup : (right.map Prod.fst).Nodup) (s : σ) :
    Settles (named Prod.fst) (fun _ own => pure own) left right s
      (combineOperations left right) s := by
  have keeps : Keeps (named Prod.fst)
      (fun _ own => (pure own : StateM σ (OperationKind × Name))) (named Prod.fst) :=
    fun x y k s left right => ⟨left.trans right.symm, right.trans left.symm⟩
  rw [← filterMap_named] at left_nodup right_nodup
  have settles := placeAll_settles keeps left_nodup right_nodup s
  rw [placeAll_pure, ← combineOperations_eq_placedAll] at settles
  exact settles

theorem outputField_eq_ask (owner : Name) : p.outputField owner = askOutput p owner := by
  funext left right
  apply bind_congr
  rintro (f | f) <;> rfl

theorem inputField_eq_ask (owner : Name) : p.inputField owner = askInput p owner := by
  funext left right
  apply bind_congr
  rintro (f | f) <;> rfl

theorem fields_settle (keeps : p.KeepsNames) {owner : Name} {left right : List Field}
    (left_nodup : (left.map (·.name)).Nodup) (right_nodup : (right.map (·.name)).Nodup) (s : σ) :
    Settles (named Field.name) (askOutput p owner) left right s
      ((combine (·.name) (p.outputField owner) left right).run s).1
      ((combine (·.name) (p.outputField owner) left right).run s).2 := by
  rw [← outputField_eq_ask]
  exact combine_settles (keeps_outputField keeps owner) left_nodup right_nodup s

theorem bodies_unite (keeps : p.KeepsNames) {owner : Name} {left right : TypeBody}
    {body : StateM σ TypeBody} (made : combineBodies? p owner left right = some body)
    (left_nodup : left.memberNames.Nodup) (right_nodup : right.memberNames.Nodup) (s : σ) :
    Bodies p owner left right s (body.run s).1 (body.run s).2 := by
  cases left <;> cases right <;> cases made
  case scalar.scalar => exact .scalar
  case object.object is fs js gs =>
    exact .object (unionNames_eq_eraseDups is js)
      (fields_settle keeps left_nodup right_nodup s)
  case interface.interface is fs js gs =>
    exact .interface (unionNames_eq_eraseDups is js)
      (fields_settle keeps left_nodup right_nodup s)
  case union.union ms ns =>
    refine .union (combine_settles (keeps_unionMember keeps owner) ?_ ?_ s)
    · exact (List.map_id ms).symm ▸ left_nodup
    · exact (List.map_id ns).symm ▸ right_nodup
  case enum.enum vs ws =>
    exact .enum (combine_settles (keeps_enumValue keeps owner) left_nodup right_nodup s)
  case input.input fs gs =>
    refine .input ?_
    rw [← inputField_eq_ask]
    exact combine_settles (keeps_inputField keeps owner) left_nodup right_nodup s

theorem kinds_of_combineBodies? {owner : Name} {left right : TypeBody}
    (none_made : combineBodies? p owner left right = none) : left.kind ≠ right.kind := by
  intro same
  cases left <;> cases right <;> simp [combineBodies?, TypeBody.kind] at none_made same

theorem types_unite (keeps : p.KeepsNames) {a b : TypeDefinition}
    (left : (Definition.type a).Clear) (right : (Definition.type b).Clear) (s : σ) :
    Unites p (.type a) (.type b) s (.type ((types p a b).run s).1) ((types p a b).run s).2 := by
  rw [types]
  split
  · rename_i none_made
    refine .kinds fun same => kinds_of_combineBodies? none_made ?_
    exact Definition.Kind.type.inj same
  · rename_i body made
    exact .type
      (combine_settles (keeps_directive keeps a.name) left.directives right.directives s)
      (bodies_unite keeps made left.members right.members _)

/-- Merging two definitions asks and answers as the rules say. -/
theorem definitions_unite (keeps : p.KeepsNames) {l r : Definition} (left_whole : l.Whole)
    (right_whole : r.Whole) (left : l.Clear) (right : r.Clear) (s : σ) :
    Unites p l r s ((definitions p l r).run s).1 ((definitions p l r).run s).2 := by
  cases l with
  | schema a =>
    cases r with
    | schema b =>
      exact .schema
        (combine_settles (keeps_directive keeps "schema") left.directives right.directives s)
        (combineOperations_settles left.operations right.operations _)
    | schemaExtension => cases right_whole
    | _ => exact .kinds nofun
  | type a =>
    cases r with
    | type b => exact types_unite keeps left right s
    | typeExtension => cases right_whole
    | _ => exact .kinds nofun
  | directive a =>
    cases r with
    | directive b => exact .directive
    | _ => exact .kinds nofun
  | operation a =>
    cases r with
    | operation b => exact .operation
    | _ => exact .kinds nofun
  | fragment a =>
    cases r with
    | fragment b => exact .fragment
    | _ => exact .kinds nofun
  | schemaExtension | typeExtension => cases left_whole

/-- A merge is the union in place of the two consolidated sides. Its definitions are those of the
left one, each shared one united with that of the right one by one question, then those of the right
one that are new. Where the policy keeps names and no list has a name twice, two definitions unite
as the rules say, whatever has been answered before. -/
theorem merge_unites (keeps : p.KeepsNames) {left right L R : Document} {s s₁ s₂ : σ}
    (left_run : (left.consolidate p).run s = (L, s₁))
    (right_run : (right.consolidate p).run s₁ = (R, s₂)) (left_clear : ∀ d ∈ L, d.Clear)
    (right_clear : ∀ d ∈ R, d.Clear) :
    Settles identity (definitions p) L R s₂ ((left.merge p right).run s).1
        ((left.merge p right).run s).2 ∧
      ∀ x y, (x, y) ∈ shared identity L R → ∀ t,
        Unites p x y t ((definitions p x y).run t).1 ((definitions p x y).run t).2 := by
  have left_made : ((left.consolidate p).run s).1 = L := congrArg Prod.fst left_run
  have right_made : ((right.consolidate p).run s₁).1 = R := congrArg Prod.fst right_run
  constructor
  · have run : (left.merge p right).run s = (placeAll identity (definitions p) L R).run s₂ := by
      rw [← foldAll_eq_placeAll]
      change (foldAll p ((left.consolidate p).run s).1
        ((right.consolidate p).run ((left.consolidate p).run s).2).1).run
        ((right.consolidate p).run ((left.consolidate p).run s).2).2 = _
      rw [left_run, right_run]
    rw [run]
    exact placeAll_settles keeps_identity (left_made ▸ nodup_consolidate left s)
      (right_made ▸ nodup_consolidate right s₁) s₂
  · intro x y both t
    obtain ⟨left_member, right_member, _⟩ := of_mem_shared both
    have left_whole := consolidate_whole left s x (left_made.symm ▸ left_member)
    have right_whole := consolidate_whole right s₁ y (right_made.symm ▸ right_member)
    exact definitions_unite keeps left_whole right_whole (left_clear x left_member)
      (right_clear y right_member) t

/-- A field of the other kind with the same name. -/
def crossed : FieldNode → FieldNode
  | .output f => .input ⟨f.description, f.name, f.type, none, f.directives⟩
  | .input f => .output ⟨f.description, f.name, [], f.type, f.directives⟩

theorem name_crossed (f : FieldNode) : (crossed f).name = f.name := by
  cases f <;> rfl

/-- The policy that keeps what the left side says and notes what it is asked about. Asked about
fields with the name `k`, it answers a field of the other kind. -/
def noting : ConflictPolicy (StateM (List (Name × Name))) where
  field owner left _ := fun noted =>
    (if left.name = "k" then crossed left else left, noted ++ [(owner, left.name)])
  directive owner left _ := fun noted => (left, noted ++ [(owner, left.name)])
  enumValue owner left _ := fun noted => (left, noted ++ [(owner, left.name)])
  unionMember owner left _ := fun noted => (left, noted ++ [(owner, left)])
  scalar owner left _ := fun noted => (left, noted ++ [(owner, owner)])

theorem noting_keepsNames : noting.KeepsNames := by
  refine ⟨fun owner l r s same => ?_, fun _ _ _ _ same => same, fun _ _ _ _ same => same,
    fun _ _ _ => rfl⟩
  change (if l.name = "k" then crossed l else l).name = r.name
  split
  · exact (name_crossed l).trans same
  · exact same

theorem merge_unites_noting :
    ∃ left right L R : Document, ∃ s₁ s₂,
      (left.consolidate noting).run [] = (L, s₁) ∧ (right.consolidate noting).run s₁ = (R, s₂) ∧
      (∀ d ∈ L, d.Clear) ∧ (∀ d ∈ R, d.Clear) ∧ (shared identity L R).length = 3 ∧
      Settles identity (definitions noting) L R s₂ ((left.merge noting right).run []).1
        ((left.merge noting right).run []).2 ∧
      (∀ x y, (x, y) ∈ shared identity L R → ∀ t, Unites noting x y t
        ((definitions noting x y).run t).1 ((definitions noting x y).run t).2) ∧
      ((left.merge noting right).run []).2 =
        [("A", "x"), ("E", "V"), ("P", "l"), ("P", "k"), ("A", "d"), ("A", "y"), ("A", "k")] ∧
      ((left.merge noting right).run []).1.print = (documentOf
        ("type A implements I & J @d @e { x: Int k: ID y: Int z: Int } enum E { U V W } " ++
          "input P { k: ID l: Int } type B { b: Int }")).print := by
  let left := documentOf ("type A implements I @d { x: Int k: Int y: Int } " ++
    "extend type A { x: ID } enum E { U V } input P { k: Int l: Int }")
  let right := documentOf ("enum E { V W } type B { b: Int } input P { l: ID k: ID } " ++
    "type A implements J & I @e @d { z: Int y: ID k: ID }")
  have left_clear : ∀ d ∈ ((left.consolidate noting).run []).1, d.Clear := by decide +kernel
  have right_clear : ∀ d ∈ ((right.consolidate noting).run
    ((left.consolidate noting).run []).2).1, d.Clear := by decide +kernel
  have left_run := Prod.eta ((left.consolidate noting).run [])
  have right_run := Prod.eta ((right.consolidate noting).run
    ((left.consolidate noting).run []).2)
  obtain ⟨settles, unites⟩ := merge_unites noting_keepsNames left_run.symm right_run.symm left_clear
    right_clear
  exact ⟨left, right, _, _, _, _, left_run.symm, right_run.symm, left_clear, right_clear,
    by decide +kernel, settles, unites, by decide +kernel⟩

end Merge
end SchemaStitch
