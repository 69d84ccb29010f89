import Mathlib.Data.List.Count
import SchemaStitch.Proofs.Pare.Entries
import SchemaStitch.Proofs.Pare.Members

/-! Paring as a subtraction. Definitions with different keys take independently of each other, so
the fields whose resolvers are taken are those that go from the document, each as often as its type
has it. With what is left of each definition this says all of what paring leaves of a document and
of a resolver map. -/
namespace SchemaStitch
open Sdl Merge

namespace Pare

section
variable {roots : List Name} {left right : Document} {l r : Definition}

theorem eq_of_identity {a b : Definition} {k : Definition.Key}
    (once : (left.filterMap identity).Nodup) (a_member : a ∈ left) (b_member : b ∈ left)
    (a_known : identity a = some k) (b_known : identity b = some k) : a = b :=
  Option.some.inj ((counterpart_of_nodup once a_member a_known a_known).symm.trans
    (counterpart_of_nodup once b_member a_known b_known))

theorem keys_of_match (same : r.key.matches l.key = true) : r.key = l.key := by
  obtain ⟨k, known, like⟩ := known_of_match same
  exact keys_of_identity known like

theorem match_of_type {type : Name} (own : l.key = .type type) (same : r.key = .type type) :
    r.key.matches l.key = true := by
  simp [Definition.Key.matches, own, same]

theorem takesFrom_subtract {u : Definition} (apart : ∀ k, identity r = some k → identity u ≠ some k)
    (left : Document) (map : ResolverMap) :
    takesFrom roots u (subtract roots r left map).1 = takesFrom roots u left := by
  induction left with
  | nil => rfl
  | cons l rest ih =>
    rw [subtract_cons]
    split
    · rename_i same
      obtain ⟨k, known, like⟩ := known_of_match same
      have passes (d : Definition) (key : d.key = l.key) (rest : Document) :
          takesFrom roots u (d :: rest) = takesFrom roots u rest := by
        refine if_neg fun own => apart k known ?_
        rw [key] at own
        exact (matches_iff.mp own).2.symm.trans like
      rw [passes l rfl]
      cases outcome : definition l r with
      | removed => rfl
      | mismatch => exact passes l rfl rest
      | kept d => exact passes d (remains_of_kept outcome).key rest
    · rw [takesFrom, ih, takesFrom]

/-- Definitions with different keys take independently of each other. -/
theorem allTakes_eq (once : (right.filterMap identity).Nodup) (left : Document) :
    allTakes roots right left = right.flatMap fun r => takesFrom roots r left := by
  induction right generalizing left with
  | nil => rfl
  | cons r rest ih =>
    have rest_once := once.sublist ((List.sublist_cons_self r rest).filterMap identity)
    have apart (u : Definition) (member : u ∈ rest) (k : Definition.Key)
        (known : identity r = some k) : identity u ≠ some k := by
      rw [List.filterMap_cons_some known, List.nodup_cons] at once
      exact fun like => once.1 (List.mem_filterMap.mpr ⟨u, member, like⟩)
    rw [allTakes, ih rest_once, List.flatMap_cons]
    refine congrArg (takesFrom roots r left ++ ·) (List.flatMap_congr fun u member => ?_)
    exact takesFrom_subtract (apart u member) left .nil

theorem takesFrom_cases (roots : List Name) (r : Definition) (left : Document) :
    (∀ l ∈ left, r.key.matches l.key = false) ∧ takesFrom roots r left = [] ∨
      ∃ l ∈ left, r.key.matches l.key = true ∧ takesFrom roots r left = takesOf roots r l := by
  rcases subtract_cases roots r left .nil with
    ⟨_, apart, none⟩ | ⟨before, l, after, rfl, same, takes, _⟩
  · exact Or.inl ⟨apart, none⟩
  · exact Or.inr ⟨l, by simp, same, takes⟩

theorem takesFrom_of_mem (once : (left.filterMap identity).Nodup) (member : l ∈ left)
    (same : r.key.matches l.key = true) : takesFrom roots r left = takesOf roots r l := by
  rcases takesFrom_cases roots r left with ⟨apart, _⟩ | ⟨x, x_member, like, takes⟩
  · simp [apart l member] at same
  · obtain ⟨k, known, own⟩ := known_of_match same
    obtain rfl : x = l := eq_of_identity once x_member member
      ((matches_iff.mp like).2.trans known) own
    exact takes

theorem mem_allTakes (roots : List Name) (left_once : (left.filterMap identity).Nodup)
    (right_once : (right.filterMap identity).Nodup) {t : Take} :
    t ∈ allTakes roots right left ↔
      ∃ l ∈ left, ∃ r ∈ right, r.key.matches l.key = true ∧ t ∈ takesOf roots r l := by
  rw [allTakes_eq right_once, List.mem_flatMap]
  constructor
  · rintro ⟨r, r_member, taken⟩
    rcases takesFrom_cases roots r left with ⟨_, none⟩ | ⟨l, l_member, same, takes⟩
    · simp [none] at taken
    · exact ⟨l, l_member, r, r_member, same, takes ▸ taken⟩
  · rintro ⟨l, l_member, r, r_member, same, taken⟩
    exact ⟨r, r_member, (takesFrom_of_mem left_once l_member same).symm ▸ taken⟩

/-- The takes of one type are those that one definition takes from another. -/
theorem filter_allTakes (roots : List Name) (left_once : (left.filterMap identity).Nodup)
    (right_once : (right.filterMap identity).Nodup) (l_member : l ∈ left) (r_member : r ∈ right)
    {type : Name} (own : l.key = .type type) (same : r.key = .type type) :
    (allTakes roots right left).filter (fun t => t.type = type) = takesOf roots r l := by
  have others (x : Definition) (apart : x.key ≠ .type type) :
      (takesFrom roots x left).filter (fun t => t.type = type) = [] := by
    rw [List.filter_eq_nil_iff]
    intro t member typed
    refine apart ?_
    rw [(takesFrom_origin member).1, of_decide_eq_true typed]
  have all : ∀ t ∈ takesOf roots r l, decide (t.type = type) = true := by
    intro t member
    obtain ⟨field, chosen, rfl⟩ := List.mem_map.mp member
    obtain ⟨d, rfl, _⟩ := gives_of_taken chosen
    exact decide_eq_true (Definition.Key.type.inj own)
  obtain ⟨before, after, rfl⟩ := List.append_of_mem r_member
  have aside (x : Definition) (member : x ∈ before ∨ x ∈ after) :=
    others x (keys_apart right_once same member)
  rw [allTakes_eq right_once, List.filter_flatMap, List.flatMap_append, List.flatMap_cons,
    List.flatMap_eq_nil_iff.mpr fun x member => aside x (Or.inl member),
    List.flatMap_eq_nil_iff.mpr fun x member => aside x (Or.inr member),
    takesFrom_of_mem left_once l_member (match_of_type own same), List.filter_eq_self.mpr all]
  simp

theorem count_takenFields {field : Name} (member : field ∈ takenFields l r) :
    (takenFields l r).count field = l.memberNames.count field := by
  cases l with
  | type t =>
    cases r with
    | type u =>
      obtain ⟨_, _, _, body⟩ := t
      obtain ⟨_, _, _, other⟩ := u
      cases body <;> cases other <;> try cases member
      · exact List.count_filter (List.mem_filter.mp member).2
      · exact List.count_filter (List.mem_filter.mp member).2
    | _ => cases member
  | _ => cases member

/-- A field is taken as often as its type has it. -/
theorem count_allTakes (roots : List Name) (left_once : (left.filterMap identity).Nodup)
    (right_once : (right.filterMap identity).Nodup) (l_member : l ∈ left) (r_member : r ∈ right)
    {place : Name × Name} (own : l.key = .type place.1) (same : r.key = .type place.1)
    (taken : place.2 ∈ takenFields l r) :
    ((allTakes roots right left).map Take.place).count place = l.memberNames.count place.2 := by
  have of_type : ((allTakes roots right left).map Take.place).count place =
      (((allTakes roots right left).filter fun t => t.type = place.1).map Take.place).count
        place := by
    rw [List.count_eq_countP, List.count_eq_countP, List.countP_map, List.countP_map,
      List.countP_filter]
    refine List.countP_congr fun t _ => ?_
    simp only [Function.comp_apply, beq_iff_eq, Bool.and_eq_true, decide_eq_true_eq]
    exact ⟨fun like => ⟨like, congrArg Prod.fst like⟩, And.left⟩
  obtain ⟨d, rfl, _⟩ := gives_of_taken taken
  have named : d.name = place.1 := Definition.Key.type.inj own
  have places : (takesOf roots r (.type d)).map Take.place =
      (takenFields (.type d) r).map (Prod.mk place.1) := by
    rw [takesOf, List.map_map, ← named]
    rfl
  rw [of_type, filter_allTakes roots left_once right_once l_member r_member own same, places,
    ← count_takenFields taken]
  exact List.count_map_of_injective _ _ (fun _ _ like => (Prod.mk.inj like).2) place.2

theorem one_of_place (roots : List Name) (left_once : (left.filterMap identity).Nodup)
    (right_once : (right.filterMap identity).Nodup) {t u : Take}
    (first : t ∈ allTakes roots right left) (second : u ∈ allTakes roots right left)
    (same : t.place = u.place) : t = u := by
  obtain ⟨l, l_member, r, r_member, like, taken⟩ :=
    (mem_allTakes roots left_once right_once).mp first
  obtain ⟨field, chosen, rfl⟩ := List.mem_map.mp taken
  obtain ⟨d, rfl, _⟩ := gives_of_taken chosen
  have key : r.key = .type d.name := keys_of_match like
  have typed : u ∈ (allTakes roots right left).filter fun t => t.type = d.name :=
    List.mem_filter.mpr ⟨second, decide_eq_true (congrArg Prod.fst same).symm⟩
  rw [filter_allTakes roots left_once right_once l_member r_member rfl key] at typed
  obtain ⟨other, _, rfl⟩ := List.mem_map.mp typed
  obtain rfl : field = other := congrArg Prod.snd same
  rfl

theorem ownsRoot_of_gives (roots : List Name) {place : Name × Name}
    (gives : l.Gives place .object) (whole : l.Whole) :
    ownsRoot roots l = roots.contains place.1 := by
  cases l with
  | type t =>
    obtain ⟨_, name, _, body⟩ := t
    obtain ⟨rfl, object, _⟩ := gives
    cases body with
    | object => rfl
    | _ => cases object
  | typeExtension => cases whole
  | _ => cases gives

theorem mem_members_of_gives {place : Name × Name} {kind : TypeKind} (gives : l.Gives place kind) :
    place.2 ∈ l.members := by
  have own {body : TypeBody} (member : place.2 ∈ body.fields.map (·.name)) :
      place.2 ∈ body.memberNames := by
    cases body with
    | object | interface => exact member
    | _ => cases member
  cases l with
  | type t | typeExtension t => exact own gives.2.2
  | _ => cases gives

theorem hasMembers_of_gives {place : Name × Name} {kind : TypeKind} (gives : l.Gives place kind) :
    l.kind.HasMembers := by
  cases l with
  | type t | typeExtension t =>
    obtain ⟨f, member, _⟩ := List.mem_map.mp gives.2.2
    exact TypeBody.kind_of_field member
  | _ => cases gives

/-- A field that does not stay is among those that are taken. -/
theorem taken_of_without {place : Name × Name} {kind : TypeKind} (l_whole : l.Whole)
    (r_whole : r.Whole) (kinds : l.kind = r.kind) (gives : l.Gives place kind)
    (goes : ¬ (l.without r).Gives place kind) : place.2 ∈ takenFields l r := by
  have named {fs : List Field} {names : List Name} (member : place.2 ∈ fs.map (·.name))
      (goes : place.2 ∉ (fs.filter fun f => !names.contains f.name).map (·.name)) :
      place.2 ∈ taken (·.name) fs names := by
    refine List.mem_filter.mpr ⟨member, ?_⟩
    obtain ⟨f, own, same⟩ := List.mem_map.mp member
    by_contra free
    refine goes (List.mem_map.mpr ⟨f, List.mem_filter.mpr ⟨own, ?_⟩, same⟩)
    rw [same]
    simpa using free
  cases l with
  | type t =>
    cases r with
    | type u =>
      obtain ⟨_, _, _, body⟩ := t
      obtain ⟨_, _, _, other⟩ := u
      obtain ⟨typed, own_kind, member⟩ := gives
      cases body with
      | object is fs =>
        cases other with
        | object => exact named member fun stays => goes ⟨typed, own_kind, stays⟩
        | _ => cases kinds
      | interface is fs =>
        cases other with
        | interface => exact named member fun stays => goes ⟨typed, own_kind, stays⟩
        | _ => cases kinds
      | _ => cases member
    | typeExtension => cases r_whole
    | _ => cases kinds
  | typeExtension => cases l_whole
  | _ => cases gives

end
end Pare

namespace Sdl.Document
open Pare

/-- Whether a field of a type of a kind stands in a document and not in a later one. -/
def Loses (before after : Document) (kind : TypeKind) (place : Name × Name) : Prop :=
  before.Says Definition.Gives place kind ∧ ¬ after.Says Definition.Gives place kind

/-- The fields whose resolvers paring takes. -/
def takes (left right : Document) : List Take :=
  allTakes (rootNames left.consolidated) right.consolidated left.consolidated

/-- Whether paring takes what stands flat under a name: the name of a field that goes from a root,
if the root has no entry for the field in its branch or its definition has the field twice. -/
def TakesFlat (left right : Document) (map : ResolverMap) (field : Name) : Prop :=
  ∃ root ∈ rootNames left.consolidated,
    left.consolidated.Loses (left.pare right map).1 .object (root, field) ∧
      (map.find? [root, field] = none ∨
        ∃ l ∈ left.consolidated, l.key = .type root ∧ 2 ≤ l.memberNames.count field)

section
variable {left right : Document} {map : ResolverMap} {kind : TypeKind} {place : Name × Name}

theorem mem_takes {t : Take} : t ∈ left.takes right ↔
    ∃ l ∈ left.consolidated, ∃ r ∈ right.consolidated, r.key.matches l.key = true ∧
      t ∈ takesOf (rootNames left.consolidated) r l :=
  mem_allTakes _ (nodup_consolidated left) (nodup_consolidated right)

theorem count_takes {l r : Definition} (l_member : l ∈ left.consolidated)
    (r_member : r ∈ right.consolidated) (own : l.key = .type place.1) (same : r.key = .type place.1)
    (taken : place.2 ∈ takenFields l r) :
    ((left.takes right).map Take.place).count place = l.memberNames.count place.2 :=
  count_allTakes _ (nodup_consolidated left) (nodup_consolidated right) l_member r_member own same
    taken

theorem loses_iff : left.consolidated.Loses (left.pare right map).1 kind place ↔
    ∃ l ∈ left.consolidated, l.Gives place kind ∧
      ∃ r ∈ right.consolidated, r.key = l.key ∧ place.2 ∈ takenFields l r := by
  have once := nodup_consolidated left
  have known {l : Definition} (gives : l.Gives place kind) : identity l = some (.type place.1) :=
    identity_eq_some.mpr ⟨key_of_gives gives, by simp⟩
  constructor
  · rintro ⟨⟨l, member, gives⟩, goes⟩
    have whole := whole_consolidated left l member
    have leaves := leaves_consolidated right member
    have stays (d : Definition) (left_of : remainder right.consolidated l = some d) :
        ¬ d.Gives place kind := fun given => goes ⟨d, mem_pare.mpr ⟨l, member, left_of⟩, given⟩
    refine ⟨l, member, gives, ?_⟩
    generalize remainder right.consolidated l = rest at leaves stays
    have taken {r : Definition} (r_member : r ∈ right.consolidated) (kinds : l.kind = r.kind)
        (goes : ¬ (l.without r).Gives place kind) : place.2 ∈ takenFields l r :=
      taken_of_without whole (whole_consolidated right r r_member) kinds gives goes
    cases leaves with
    | alone | unlike => exact absurd gives (stays l rfl)
    | whole _ _ _ _ bare => exact absurd (hasMembers_of_gives gives) bare
    | @part r r_member same kinds =>
      exact ⟨r, r_member, same, taken r_member kinds (stays _ rfl)⟩
    | @emptied r r_member same kinds _ gone =>
      refine ⟨r, r_member, same, taken r_member kinds fun given => ?_⟩
      have own := mem_members_of_gives given
      simp [gone] at own
  · rintro ⟨l, member, gives, r, r_member, same, taken⟩
    refine ⟨⟨l, member, gives⟩, ?_⟩
    rintro ⟨x, stands, given⟩
    obtain ⟨own, own_member, left_of⟩ := mem_pare.mp stands
    have leaves := leaves_consolidated right own_member
    rw [left_of] at leaves
    have own_known : identity own = some (.type place.1) :=
      identity_eq_some.mpr ⟨leaves.key.symm.trans (key_of_gives given), by simp⟩
    obtain rfl : own = l := eq_of_identity once own_member member own_known (known gives)
    have like : identity r = some (.type place.1) :=
      identity_eq_some.mpr ⟨same.trans (key_of_gives gives), by simp⟩
    rw [remainder_of_mem (nodup_consolidated right) r_member own_known like] at left_of
    cases outcome : definition own r with
    | removed => simp [outcome, Outcome.left] at left_of
    | mismatch => simp [takenFields_of_mismatch outcome] at taken
    | kept d =>
      rw [outcome] at left_of
      obtain rfl : d = x := Option.some.inj left_of
      exact ((remains_of_kept outcome).gives given).2 taken

theorem taken_iff (map : ResolverMap) {place : Name × Name} :
    (∃ t ∈ left.takes right, t.place = place) ↔
      ∃ kind, left.consolidated.Loses (left.pare right map).1 kind place := by
  simp only [loses_iff, mem_takes]
  constructor
  · rintro ⟨_, ⟨l, member, r, r_member, like, taken⟩, rfl⟩
    obtain ⟨field, chosen, rfl⟩ := List.mem_map.mp taken
    obtain ⟨d, rfl, gives⟩ := gives_of_taken chosen
    exact ⟨_, _, member, gives, r, r_member, keys_of_match like, chosen⟩
  · rintro ⟨kind, l, member, gives, r, r_member, same, taken⟩
    have key := key_of_gives gives
    have like := match_of_type key (same.trans key)
    obtain ⟨d, rfl, own⟩ := gives_of_taken taken
    exact ⟨_, ⟨_, member, r, r_member, like, List.mem_map_of_mem taken⟩,
      Prod.ext (Definition.Key.type.inj key) rfl⟩

theorem takenFlat_iff {field : Name} :
    TakenFlat (left.takes right) map field ↔ left.TakesFlat right map field := by
  constructor
  · rintro ⟨t, member, root, rfl, reason⟩
    obtain ⟨l, l_member, r, r_member, like, taken⟩ := mem_takes.mp member
    obtain ⟨field, chosen, rfl⟩ := List.mem_map.mp taken
    obtain ⟨d, rfl, gives⟩ := gives_of_taken chosen
    have same := keys_of_match like
    have object : d.body.kind = .object ∧ d.name ∈ rootNames left.consolidated := by
      obtain ⟨_, name, _, body⟩ := d
      cases body with
      | object => exact ⟨rfl, List.contains_iff_mem.mp root⟩
      | _ => cases root
    rw [object.1] at gives
    refine ⟨d.name, object.2, loses_iff.mpr ⟨_, l_member, gives, r, r_member, same, chosen⟩,
      reason.imp_right fun twice => ⟨_, l_member, rfl, ?_⟩⟩
    have own : (Definition.type d).key = .type (d.name, field).1 := rfl
    exact count_takes l_member r_member own same chosen ▸ twice
  · rintro ⟨root, listed, loses, reason⟩
    obtain ⟨l, l_member, gives, r, r_member, same, taken⟩ := loses_iff.mp loses
    have key := key_of_gives gives
    have is_root := ownsRoot_of_gives (rootNames left.consolidated) gives
      (whole_consolidated left l l_member)
    have member := mem_takes.mpr ⟨l, l_member, r, r_member,
      match_of_type key (same.trans key), List.mem_map_of_mem taken⟩
    refine ⟨_, member, is_root.trans (List.contains_iff_mem.mpr listed), rfl, ?_⟩
    obtain ⟨d, rfl, _⟩ := gives_of_taken taken
    obtain rfl : d.name = root := Definition.Key.type.inj key
    refine reason.imp_right fun ⟨own, own_member, own_key, twice⟩ => ?_
    obtain rfl : own = .type d := eq_of_identity (nodup_consolidated left) own_member l_member
      (identity_eq_some.mpr ⟨own_key, by simp⟩) (identity_eq_some.mpr ⟨key, by simp⟩)
    exact count_takes l_member r_member key (same.trans key) taken ▸ twice

/-- Paring subtracts definition by definition, in the order of the left side, and entry by entry in
the resolver map. -/
theorem pare_subtracts (left right : Document) (keyed : map.Keyed) :
    (∃ rest : Definition → Option Definition,
      (left.pare right map).1 = left.consolidated.filterMap rest ∧
      ∀ l ∈ left.consolidated, Leaves right.consolidated l (rest l)) ∧
    Follows (fun place => ∃ kind, left.consolidated.Loses (left.pare right map).1 kind place)
      (left.TakesFlat right map) map (left.pare right map).2 := by
  refine ⟨⟨remainder right.consolidated, pare_eq map, fun _ => leaves_consolidated right⟩, ?_⟩
  have one : (left.takes right).Pairwise fun t u => t.place = u.place → t = u :=
    List.pairwise_of_forall_mem_list fun _ first _ second =>
      one_of_place _ (nodup_consolidated left) (nodup_consolidated right) first second
  have made : (left.pare right map).2 = (left.takes right).foldl Take.apply map :=
    subtractAll_map _ _ _
  have takes := follows_takes keyed one
  have flat : TakenFlat (left.takes right) map = left.TakesFlat right map :=
    funext fun _ => propext takenFlat_iff
  simp only [taken_iff map] at takes
  rwa [flat, ← made] at takes

theorem pare_subtracts_from_a_root :
    ∃ (left right : Document) (map : ResolverMap), map.Keyed ∧
      map.keys = ["a", "Query", "T", "b"] ∧ (left.pare right map).2.keys = ["Query", "b"] ∧
      (left.pare right map).1.map Definition.members = [["b"], ["y"], ["z"], []] ∧
      (∃ rest : Definition → Option Definition,
        (left.pare right map).1 = left.consolidated.filterMap rest ∧
        ∀ l ∈ left.consolidated, Leaves right.consolidated l (rest l)) ∧
      Follows (fun place => ∃ kind, left.consolidated.Loses (left.pare right map).1 kind place)
        (left.TakesFlat right map) map (left.pare right map).2 := by
  let left := documentOf
    ("type Query { a: Int b: Int } type T @d { x: Int y: Int } scalar S " ++
      "extend type U { z: Int } { a }")
  let right := documentOf
    "extend type Query { a: Int } type T @d { x: Int } scalar S enum U { z } { a }"
  let leaf : Leaf := .resolver (.function default Resolver.readParent)
  let map : ResolverMap := .leaf "a" leaf <| .branch "Query" (.leaf "b" leaf .nil) <|
    .branch "T" (.leaf "x" leaf .nil) <| .leaf "b" leaf .nil
  have keyed : map.Keyed := ⟨by decide, by decide, ⟨by decide, trivial⟩, by decide,
    ⟨by decide, trivial⟩, by decide, trivial⟩
  obtain ⟨document, entries⟩ := pare_subtracts left right keyed
  exact ⟨left, right, map, keyed, rfl, by decide +kernel, by decide +kernel, document, entries⟩

end
end Sdl.Document
end SchemaStitch
