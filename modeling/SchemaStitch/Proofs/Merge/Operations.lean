import SchemaStitch.Proofs.Merge.Grouping

/-! Operations and fragments in a merge. Operations without a name are all in it, in their order. Of
the definitions with one name the first stands as it is, as long as all are operations or all are
fragments. The two kinds share their keys, so where both have a name one of them is lost. -/
namespace SchemaStitch
open Sdl

/-- Whether a definition has the key and the kind of another. -/
def Sdl.Definition.alike (d x : Definition) : Bool := x.key = d.key && x.kind = d.kind

/-- Whether a document has just one definition of the key and kind of a definition, the first that
another document has. -/
def Sdl.Document.Represents (merged all : Document) (d : Definition) : Prop :=
  ∃ first, all.find? d.alike = some first ∧ merged.filter d.alike = [first]

namespace Merge

variable {σ : Type} {p : ConflictPolicy (StateM σ)}

section
variable {α κ : Type} [DecidableEq κ] {ident : α → Option κ} {settle : α → α → StateM σ α}
  {item : α} {left right : List α} {test : α → Bool}

/-- Items that no settling brings forth or does away with are all there once lists are brought
together. -/
theorem filter_placeAll
    (unsettled : ∀ x y k s, ident x = some k → ident y = some k →
      test x = false ∧ test ((settle x y).run s).1 = false) (s : σ) :
    ((placeAll ident settle left right).run s).1.filter test = (left ++ right).filter test := by
  induction right generalizing left s with
  | nil => rw [List.append_nil]; rfl
  | cons item rest ih =>
    have found := finds_place ident settle item left
    rw [placeAll]
    generalize place ident settle item left = placed at found ⊢
    cases found with
    | last fresh =>
      rw [pure_bind, ih, List.append_assoc]
      rfl
    | @taken k before after present known like =>
      have stands := unsettled present item k s like known
      have brought := (unsettled item present k s known like).1
      change ((placeAll ident settle (before ++ ((settle present item).run s).1 :: after) rest).run
        ((settle present item).run s).2).1.filter test = _
      rw [ih]
      simp [List.filter_append, stands, brought]

/-- The first item that passes a test is still the first one if settling leaves it as it is and
brings no other to pass. -/
theorem find?_placeAll {P : α → Prop}
    (kept : ∀ x y k s, ident x = some k → ident y = some k → P x → P y → P ((settle x y).run s).1)
    (stands : ∀ x y k, ident x = some k → ident y = some k → P x → P y → test x = true →
      settle x y = pure x)
    (others : ∀ x y k s, ident x = some k → ident y = some k → P x → P y → test x = false →
      test y = false ∧ test ((settle x y).run s).1 = false)
    (all : ∀ x ∈ left, P x) (own : ∀ x ∈ right, P x) (s : σ) :
    ((placeAll ident settle left right).run s).1.find? test = (left ++ right).find? test := by
  induction right generalizing left s with
  | nil => rw [List.append_nil]; rfl
  | cons item rest ih =>
    have item_inside := own item List.mem_cons_self
    have rest_inside : ∀ x ∈ rest, P x := fun x member => own x (List.mem_cons_of_mem _ member)
    have placed_inside := forall_place all item_inside kept s
    have found := finds_place ident settle item left
    rw [placeAll]
    change ((placeAll ident settle ((place ident settle item left).run s).1 rest).run
      ((place ident settle item left).run s).2).1.find? test = _
    rw [ih placed_inside rest_inside]
    generalize place ident settle item left = placed at found ⊢
    cases found with
    | last fresh =>
      change (left ++ [item] ++ rest).find? test = _
      rw [List.append_assoc]
      rfl
    | @taken k before after present known like =>
      have inside := all present (by simp)
      change (before ++ ((settle present item).run s).1 :: after ++ rest).find? test = _
      cases passes : test present with
      | true =>
        rw [stands present item k like known inside item_inside passes]
        change (before ++ present :: after ++ rest).find? test = _
        simp [List.find?_append, passes]
      | false =>
        obtain ⟨brought, settled⟩ := others present item k s like known inside item_inside passes
        simp [List.find?_append, passes, brought, settled]

end

/-- Of two definitions of one kind that is neither of types nor of the schema, the left one stands. -/
theorem definitions_executable {x y : Definition} {name : Option Name}
    (own : x.key = .executable name) (same : x.kind = y.kind) : definitions p x y = pure x := by
  cases x with
  | operation => cases y <;> first | rfl | cases same
  | fragment => cases y <;> first | rfl | cases same
  | _ => cases own

theorem asDefinition_executable {x : Definition} {name : Option Name}
    (own : x.asDefinition.key = .executable name) : x.asDefinition = x := by
  cases x with
  | schemaExtension | typeExtension => cases own
  | _ => rfl

theorem alike_iff {d x : Definition} : d.alike x = true ↔ x.key = d.key ∧ x.kind = d.kind := by
  simp [Definition.alike]

theorem filter_asDefinition {test : Definition → Bool} (blind : ∀ x, test x.asDefinition = test x)
    (executable : ∀ x, test x = true → ∃ name, x.key = .executable name) (d : Document) :
    (d.map Definition.asDefinition).filter test = d.filter test := by
  rw [List.filter_map, show test ∘ Definition.asDefinition = test from funext blind]
  refine (List.map_congr_left fun x member => ?_).trans (List.map_id _)
  obtain ⟨name, own⟩ := executable x (List.mem_filter.mp member).2
  exact asDefinition_executable ((key_asDefinition x).trans own)

/-- Operations without a name are all in a merge. -/
theorem merge_keeps_anonymous (left right : Document) (s : σ) :
    (((left.merge p right).run s).1.filter fun d => d.key = .executable none) =
      (left ++ right).filter fun d => d.key = .executable none := by
  have unsettled (x y : Definition) (k : Definition.Key) (s : σ) (known : identity x = some k)
      (like : identity y = some k) : decide (x.key = .executable none) = false ∧
        decide (((definitions p x y).run s).1.key = .executable none) = false := by
    obtain ⟨own, named⟩ := identity_eq_some.mp known
    have settled := (keeps_key (p := p) x y k s known like).2
    simp [settled, own, named]
  have consolidated (d : Document) (s : σ) : (((d.consolidate p).run s).1.filter fun x =>
      decide (x.key = .executable none)) = d.filter fun x => x.key = .executable none := by
    rw [Document.consolidate, foldAll_eq_placeAll, filter_placeAll unsettled, List.nil_append,
      filter_asDefinition (fun x => by rw [key_asDefinition])]
    exact fun x anonymous => ⟨none, of_decide_eq_true anonymous⟩
  rw [merge_run, foldAll_eq_placeAll, filter_placeAll unsettled, List.filter_append, consolidated,
    consolidated, List.filter_append]

/-- Whether a definition with the key of another one is of its kind. -/
def Agrees (d x : Definition) : Prop := x.key = d.key → x.kind = d.kind

section
variable {d : Definition} {name : Name} (named : d.key = .executable (some name))
include named

section
variable {x y : Definition} {k : Definition.Key} (known : identity x = some k)
  (like : identity y = some k) (x_agrees : Agrees d x) (y_agrees : Agrees d y)
include known like x_agrees y_agrees

theorem definitions_agree (own : x.key = d.key) : definitions p x y = pure x := by
  have same := (keeps_key (p := (.keepRight : ConflictPolicy (StateM Unit))) x y k () known like).1
  refine definitions_executable (own.trans named) ((x_agrees own).trans (y_agrees ?_).symm)
  exact same.symm.trans own

theorem agrees_settled (s : σ) : Agrees d ((definitions p x y).run s).1 := by
  intro own
  have x_own := (keeps_key (p := p) x y k s known like).2.symm.trans own
  rw [definitions_agree named known like x_agrees y_agrees x_own]
  exact x_agrees x_own

omit named y_agrees in
theorem unlike_settled (unlike : d.alike x = false) (s : σ) :
    d.alike y = false ∧ d.alike ((definitions p x y).run s).1 = false := by
  have keys := keeps_key (p := p) x y k s known like
  have other : x.key ≠ d.key := fun own => by
    rw [alike_iff.mpr ⟨own, x_agrees own⟩] at unlike
    cases unlike
  simp [Definition.alike, keys.2, ← keys.1, other]

end

theorem find?_agreeing {left right : Document} (left_agrees : ∀ x ∈ left, Agrees d x)
    (right_agrees : ∀ x ∈ right, Agrees d x) (s : σ) :
    ((foldAll p left right).run s).1.find? d.alike = (left ++ right).find? d.alike := by
  rw [foldAll_eq_placeAll]
  refine find?_placeAll (P := Agrees d) (fun x y k s known like x_agrees y_agrees =>
      agrees_settled named known like x_agrees y_agrees s)
    (fun x y k known like x_agrees y_agrees alike =>
      definitions_agree named known like x_agrees y_agrees (alike_iff.mp alike).1)
    (fun x y k s known like x_agrees _ unlike => unlike_settled known like x_agrees unlike s)
    left_agrees right_agrees s

theorem consolidate_agreeing {doc : Document} (agrees : ∀ x ∈ doc, Agrees d x) (s : σ) :
    ((doc.consolidate p).run s).1.find? d.alike = doc.find? d.alike ∧
      ∀ x ∈ ((doc.consolidate p).run s).1, Agrees d x := by
  have blind (x : Definition) : d.alike x.asDefinition = d.alike x := by
    rw [Definition.alike, key_asDefinition, kind_asDefinition]
    rfl
  have executable (x : Definition) (alike : d.alike x = true) : ∃ name, x.key = .executable name :=
    ⟨some name, (alike_iff.mp alike).1.trans named⟩
  have rewritten : ∀ x ∈ doc.map Definition.asDefinition, Agrees d x := by
    intro x member
    obtain ⟨y, stands, rfl⟩ := List.mem_map.mp member
    rw [Agrees, key_asDefinition, kind_asDefinition]
    exact agrees y stands
  constructor
  · rw [Document.consolidate, find?_agreeing named (by simp) rewritten, List.nil_append,
      ← List.head?_filter, filter_asDefinition blind executable, List.head?_filter]
  · rw [Document.consolidate, foldAll_eq_placeAll]
    exact forall_placeAll (by simp) rewritten (fun x y k s known like x_agrees y_agrees =>
      agrees_settled named known like x_agrees y_agrees s) s

/-- Of the operations or fragments of one name, the first is the first one in a merge. -/
theorem find?_merge {left right : Document} (agrees : ∀ x ∈ left ++ right, Agrees d x) (s : σ) :
    ((left.merge p right).run s).1.find? d.alike = (left ++ right).find? d.alike := by
  have left_kept := consolidate_agreeing (p := p) named
    (fun x member => agrees x (List.mem_append_left _ member)) s
  have right_kept := consolidate_agreeing (p := p) named
    (fun x member => agrees x (List.mem_append_right _ member)) ((left.consolidate p).run s).2
  rw [merge_run, find?_agreeing named left_kept.2 right_kept.2, List.find?_append, left_kept.1,
    right_kept.1, List.find?_append]

end

theorem filter_alike {d x : Definition} {name : Name} {doc : Document}
    (once : (doc.filterMap identity).Nodup) (named : d.key = .executable (some name))
    (found : doc.find? d.alike = some x) : doc.filter d.alike = [x] := by
  obtain ⟨alike, before, after, rfl, passed⟩ := List.find?_eq_some_iff_append.mp found
  have known {y : Definition} (alike : d.alike y = true) : identity y = some d.key :=
    identity_eq_some.mpr ⟨(alike_iff.mp alike).1, by simp [named]⟩
  have first : before.filter d.alike = [] := by simpa using passed
  have last : after.filter d.alike = [] := List.filter_eq_nil_iff.mpr fun y member own =>
    unlike_of_nodup once (known alike) (Or.inr member) (known own)
  rw [List.filter_append, first, List.filter_cons_of_pos alike, last, List.nil_append]

/-- Operations without a name are all in a merge, in their order. The operations and fragments of a
name are each represented by the first of their kind if and only if they are all of one kind. -/
theorem merge_keeps_executables (left right : Document) (s : σ) :
    (((left.merge p right).run s).1.filter fun d => d.key = .executable none) =
        ((left ++ right).filter fun d => d.key = .executable none) ∧
      ∀ name, (∀ d ∈ left ++ right, d.key = .executable (some name) →
          Document.Represents ((left.merge p right).run s).1 (left ++ right) d) ↔
        ∀ d ∈ left ++ right, ∀ x ∈ left ++ right, d.key = .executable (some name) →
          x.key = .executable (some name) → x.kind = d.kind := by
  have once := nodup_merge (p := p) left right s
  refine ⟨merge_keeps_anonymous left right s, fun name => ⟨?_, ?_⟩⟩
  · intro kept d d_member x x_member d_named x_named
    obtain ⟨a, _, a_only⟩ := kept d d_member d_named
    obtain ⟨b, _, b_only⟩ := kept x x_member x_named
    obtain ⟨a_member, a_alike⟩ := List.mem_filter.mp (a_only ▸ List.mem_singleton_self a)
    obtain ⟨b_member, b_alike⟩ := List.mem_filter.mp (b_only ▸ List.mem_singleton_self b)
    obtain ⟨a_key, a_kind⟩ := alike_iff.mp a_alike
    obtain ⟨b_key, b_kind⟩ := alike_iff.mp b_alike
    have a_known : identity a = some (.executable (some name)) :=
      identity_eq_some.mpr ⟨a_key.trans d_named, by simp⟩
    have b_known : identity b = some (.executable (some name)) :=
      identity_eq_some.mpr ⟨b_key.trans x_named, by simp⟩
    have same := (counterpart_of_nodup once a_member a_known a_known).symm.trans
      (counterpart_of_nodup once b_member a_known b_known)
    rw [← a_kind, ← b_kind, Option.some.inj same]
  · intro kinds d member named
    have agrees : ∀ x ∈ left ++ right, Agrees d x := fun x x_member same =>
      kinds d member x x_member named (same.trans named)
    have present : ((left ++ right).find? d.alike).isSome :=
      List.find?_isSome.mpr ⟨d, member, alike_iff.mpr ⟨rfl, rfl⟩⟩
    obtain ⟨first, found⟩ := Option.isSome_iff_exists.mp present
    exact ⟨first, found, filter_alike once named ((find?_merge named agrees s).trans found)⟩

theorem merge_keeps_executables_named :
    ∃ (left right : Document) (d : Definition),
      d ∈ left ++ right ∧ d.key = .executable (some "F") ∧
      (∀ d ∈ left ++ right, ∀ x ∈ left ++ right, d.key = .executable (some "F") →
        x.key = .executable (some "F") → x.kind = d.kind) ∧
      Document.Represents ((left.merge (.keepRight : ConflictPolicy (StateM Unit)) right).run ()).1
        (left ++ right) d := by
  let left := documentOf "{ a } query G { a } fragment F on Query { a }"
  let right := documentOf "fragment F on Query { b } { b } query G { b } { a }"
  have stands : ∃ d ∈ left ++ right, d.key = .executable (some "F") := by decide +kernel
  have kinds : ∀ d ∈ left ++ right, ∀ x ∈ left ++ right, d.key = .executable (some "F") →
      x.key = .executable (some "F") → x.kind = d.kind := by decide +kernel
  obtain ⟨d, member, named⟩ := stands
  have kept := (merge_keeps_executables (p := .keepRight) left right ()).2 "F"
  exact ⟨left, right, d, member, named, kinds, kept.mpr kinds d member named⟩

/-- An operation is lost to a fragment of its name. -/
theorem merge_can_lose_executables :
    ¬ ∀ (left right : Document), ∀ d ∈ left ++ right, ∀ name, d.key = .executable (some name) →
      Document.Represents ((left.merge (.keepRight : ConflictPolicy (StateM Unit)) right).run ()).1
        (left ++ right) d := by
  intro claim
  let left := documentOf "query F { a }"
  let right := documentOf "fragment F on Query { a }"
  have stands : ∃ d ∈ left ++ right, d.key = .executable (some "F") ∧
      ((left.merge (.keepRight : ConflictPolicy (StateM Unit)) right).run ()).1.filter d.alike =
        [] := by decide +kernel
  obtain ⟨d, member, named, lost⟩ := stands
  obtain ⟨first, _, only⟩ := claim left right d member "F" named
  rw [lost] at only
  cases only

end Merge
end SchemaStitch
