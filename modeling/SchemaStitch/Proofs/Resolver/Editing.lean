import SchemaStitch.Proofs.Resolver.Owned

/-! Compositions under edits. Entries are put in around the first copy of the anchor, and while the
anchor itself is neither put in nor removed, they keep to three stretches around it, whatever is
removed in between. Wrapping a resolver puts two blocks of entries in, each in the order given, but
for entries that are put last because the anchor is gone. -/
namespace SchemaStitch

namespace Resolver

@[simp] theorem same_self (r : Resolver) : r.same r = true := by simp [same]

theorem same_comm (a b : Resolver) : a.same b = b.same a := by rw [same, same, Bool.beq_comm]

theorem same_congr {a b : Resolver} (copies : a.same b = true) (r : Resolver) :
    r.same a = r.same b := by
  rw [same, beq_iff_eq] at copies
  rw [same, same, copies]

/-- The entries that a resolver has, if it is a composition, or is. -/
def entries (r : Resolver) : List Resolver :=
  match r.composer? with
  | some c => c.order
  | none => [r]

/-- The resolver that a composition was built around, or the resolver itself if it is no
composition. -/
def anchor? (r : Resolver) : Option Resolver :=
  match r.composer? with
  | some c => c.anchor
  | none => some r

/-- The patcher that a resolver brings. -/
def patcher? (r : Resolver) : Option Patcher := r.composer?.bind (·.patcher)

end Resolver

namespace Composer

/-- No entry is a copy of a resolver. -/
def Lacks (o : Resolver) (l : List Resolver) : Prop := ∀ x ∈ l, x.same o = false

instance (o : Resolver) (l : List Resolver) : Decidable (Lacks o l) :=
  inferInstanceAs (Decidable (∀ x ∈ l, x.same o = false))

/-- The first copy of a resolver among entries, between those before it and those after it. -/
structure FirstCopy (o : Resolver) (l before : List Resolver) (entry : Resolver)
    (after : List Resolver) : Prop where
  split : l = before ++ entry :: after
  copy : entry.same o = true
  first : Lacks o before

section
variable {o : Resolver} {l before after : List Resolver} {entry : Resolver}

@[simp] theorem lacks_nil : Lacks o [] := fun _ member => nomatch member

@[simp] theorem lacks_cons {x : Resolver} : Lacks o (x :: l) ↔ x.same o = false ∧ Lacks o l :=
  List.forall_mem_cons

@[simp] theorem lacks_append : Lacks o (before ++ after) ↔ Lacks o before ∧ Lacks o after :=
  List.forall_mem_append

theorem firstCopy_or_lacks (o : Resolver) (l : List Resolver) :
    (∃ before entry after, FirstCopy o l before entry after) ∨ Lacks o l := by
  induction l with
  | nil => exact Or.inr lacks_nil
  | cons x rest ih =>
    cases here : x.same o with
    | true => exact Or.inl ⟨[], x, rest, rfl, here, lacks_nil⟩
    | false =>
      rcases ih with ⟨before, entry, after, rfl, copy, first⟩ | lacks
      · exact Or.inl ⟨x :: before, entry, after, rfl, copy, lacks_cons.mpr ⟨here, first⟩⟩
      · exact Or.inr (lacks_cons.mpr ⟨here, lacks⟩)

theorem FirstCopy.not_lacks (found : FirstCopy o l before entry after) : ¬ Lacks o l := by
  intro lacks
  have unlike := lacks entry (by simp [found.split])
  rw [found.copy] at unlike
  contradiction

theorem FirstCopy.behind {front : List Resolver} (found : FirstCopy o l before entry after)
    (others : Lacks o front) : FirstCopy o (front ++ l) (front ++ before) entry after := by
  refine ⟨?_, found.copy, lacks_append.mpr ⟨others, found.first⟩⟩
  rw [found.split, List.append_assoc]

variable {c : Composer}

theorem append_of_firstCopy (anchor : c.anchor = some o)
    (found : FirstCopy o c.order before entry after) (r : Resolver) :
    append r c = { c with order := before ++ entry :: r :: after } := by
  have index : anchorIndex c = some before.length := by
    have none_before : before.findIdx? (·.same o) = none :=
      List.findIdx?_eq_none_iff.mpr found.first
    rw [anchorIndex, anchor]
    simp only
    rw [found.split, List.findIdx?_append, none_before, List.findIdx?_cons, found.copy]
    simp
  rw [append, index]
  simp only
  rw [found.split, List.append_cons before entry after, List.take_left' (by simp),
    List.drop_left' (by simp)]
  simp

theorem append_of_lacks (anchor : ∀ o ∈ c.anchor, Lacks o c.order) (r : Resolver) :
    append r c = { c with order := c.order ++ [r] } := by
  have index : anchorIndex c = none := by
    rw [anchorIndex]
    cases own : c.anchor with
    | none => rfl
    | some o => exact List.findIdx?_eq_none_iff.mpr (anchor o own)
  rw [append, index]
  simp

theorem remove_of_firstCopy {r : Resolver} (found : FirstCopy r c.order before entry after) :
    remove r c = ({ c with order := before ++ after }, some entry) := by
  have unlike : ∀ x ∈ before, ¬ x.same r = true := fun x member => by simp [found.first x member]
  have answer : c.order.find? (·.same r) = some entry := by
    rw [List.find?_eq_some_iff_append]
    exact ⟨found.copy, before, after, found.split, fun x member => by simp [found.first x member]⟩
  have left : c.order.eraseP (·.same r) = before ++ after := by
    rw [found.split, List.eraseP_append_right _ unlike, List.eraseP_cons, found.copy]
    rfl
  rw [remove, answer]
  simp only [left]

theorem remove_of_lacks {r : Resolver} (lacks : Lacks r c.order) : remove r c = (c, none) := by
  have answer : c.order.find? (·.same r) = none :=
    List.find?_eq_none.mpr fun x member => by simp [lacks x member]
  rw [remove, answer]

end

/-- A change of the entries of a composition. -/
inductive Edit where
  | prepend (r : Resolver)
  | append (r : Resolver)
  | push (r : Resolver)
  | remove (r : Resolver)

/-- The resolver that an edit puts in or removes. -/
def Edit.subject : Edit → Resolver
  | .prepend r | .append r | .push r | .remove r => r

/-- The resolver that an edit puts in, if it does not remove one. -/
def Edit.inserted? : Edit → Option Resolver
  | .prepend r | .append r | .push r => some r
  | .remove _ => none

/-- Makes one edit. -/
def edit (c : Composer) : Edit → Composer
  | .prepend r => prepend r c
  | .append r => append r c
  | .push r => push r c
  | .remove r => (remove r c).1

/-- Makes edits one after the other. -/
def edited (c : Composer) (edits : List Edit) : Composer := edits.foldl edit c

/-- The entries around an anchor: those prepended, the latest first, those appended, the latest
first, and those pushed, in order. -/
structure Segments where
  prepended : List Resolver
  appended : List Resolver
  pushed : List Resolver

namespace Segments

def order (s : Segments) (o : Resolver) : List Resolver :=
  s.prepended ++ o :: s.appended ++ s.pushed

/-- What an edit does to the entries around an anchor that it does not remove. -/
def edit (s : Segments) : Edit → Segments
  | .prepend r => { s with prepended := r :: s.prepended }
  | .append r => { s with appended := r :: s.appended }
  | .push r => { s with pushed := s.pushed ++ [r] }
  | .remove r =>
    if s.prepended.any (·.same r) then { s with prepended := s.prepended.eraseP (·.same r) }
    else if s.appended.any (·.same r) then { s with appended := s.appended.eraseP (·.same r) }
    else { s with pushed := s.pushed.eraseP (·.same r) }

def edited (s : Segments) (edits : List Edit) : Segments := edits.foldl edit s

end Segments

/-- A composition whose entries are an anchor and others around it, none of them a copy of it. -/
structure Arranged (o : Resolver) (c : Composer) (s : Segments) : Prop where
  anchor : c.anchor = some o
  order : c.order = s.order o
  others : Lacks o s.prepended ∧ Lacks o s.appended ∧ Lacks o s.pushed

section
variable {o : Resolver} {c : Composer}

theorem remove_fst (r : Resolver) (c : Composer) :
    (remove r c).1 = { c with order := c.order.eraseP (·.same r) } := by
  rw [remove]
  cases found : c.order.find? (·.same r) with
  | some entry => rfl
  | none =>
    have unlike := List.find?_eq_none.mp found
    simp only [List.eraseP_of_forall_not unlike]

theorem anchor_edit (c : Composer) (e : Edit) : (c.edit e).anchor = c.anchor := by
  cases e with
  | remove r => rw [edit, remove_fst]
  | _ => rfl

theorem anchor_edited (c : Composer) (edits : List Edit) : (c.edited edits).anchor = c.anchor := by
  induction edits generalizing c with
  | nil => rfl
  | cons e rest ih => exact (ih (c.edit e)).trans (anchor_edit c e)

theorem lacks_eraseP {l : List Resolver} (lacks : Lacks o l) (p : Resolver → Bool) :
    Lacks o (l.eraseP p) := fun x member => lacks x (List.mem_of_mem_eraseP member)

/-- An edit that neither puts the anchor in nor removes it edits the entries around it. -/
theorem Arranged.edit {s : Segments} (arranged : Arranged o c s) {e : Edit}
    (other : e.subject.same o = false) : Arranged o (c.edit e) (s.edit e) := by
  obtain ⟨anchor, order, before, next, last⟩ := arranged
  cases e with
  | prepend r =>
    refine ⟨anchor, ?_, lacks_cons.mpr ⟨other, before⟩, next, last⟩
    rw [Composer.edit, prepend, order]
    rfl
  | append r =>
    refine ⟨anchor, ?_, before, lacks_cons.mpr ⟨other, next⟩, last⟩
    have found : FirstCopy o c.order s.prepended o (s.appended ++ s.pushed) :=
      ⟨by rw [order, Segments.order, List.append_assoc, List.cons_append], o.same_self, before⟩
    rw [Composer.edit, append_of_firstCopy anchor found]
    simp [Segments.edit, Segments.order]
  | push r =>
    refine ⟨anchor, ?_, before, next, lacks_append.mpr ⟨last, lacks_cons.mpr ⟨other, lacks_nil⟩⟩⟩
    rw [Composer.edit, push, order]
    simp [Segments.edit, Segments.order]
  | remove r =>
    have unlike : o.same r = false := (Resolver.same_comm o r).trans other
    refine ⟨(anchor_edit c _).trans anchor, ?_, ?_⟩
    · rw [Composer.edit, remove_fst, order, Segments.edit, Segments.order, List.append_assoc,
        List.cons_append, List.eraseP_append, List.eraseP_cons, unlike, List.eraseP_append]
      split
      · simp [Segments.order]
      · split <;> simp [Segments.order]
    · rw [Segments.edit]
      split
      · exact ⟨lacks_eraseP before _, next, last⟩
      · split
        · exact ⟨before, lacks_eraseP next _, last⟩
        · exact ⟨before, next, lacks_eraseP last _⟩

theorem Arranged.edited {s : Segments} (arranged : Arranged o c s) {edits : List Edit}
    (others : ∀ e ∈ edits, e.subject.same o = false) :
    Arranged o (c.edited edits) (s.edited edits) := by
  induction edits generalizing c s with
  | nil => exact arranged
  | cons e rest ih =>
    exact ih (arranged.edit (others e List.mem_cons_self))
      fun later member => others later (List.mem_cons_of_mem e member)

/-- An anchor that is removed leaves no copy behind. -/
theorem Arranged.lacks_remove {s : Segments} (arranged : Arranged o c s) {r : Resolver}
    (copy : r.same o = true) : Lacks o (c.edit (.remove r)).order := by
  obtain ⟨anchor, order, before, next, last⟩ := arranged
  have alike := Resolver.same_congr copy
  have first : Lacks r s.prepended := fun x member => (alike x).trans (before x member)
  have found : FirstCopy r c.order s.prepended o (s.appended ++ s.pushed) := by
    refine ⟨?_, (alike o).trans o.same_self, first⟩
    rw [order, Segments.order, List.append_assoc, List.cons_append]
  rw [Composer.edit, remove_of_firstCopy found]
  exact lacks_append.mpr ⟨before, lacks_append.mpr ⟨next, last⟩⟩

theorem mem_append_order {x r : Resolver} (member : x ∈ (append r c).order) :
    x ∈ c.order ∨ x = r := by
  rw [append] at member
  rcases List.mem_append.mp member with front | back
  · exact Or.inl (List.mem_of_mem_take front)
  · rcases List.mem_cons.mp back with same | back
    · exact Or.inr same
    · exact Or.inl (List.mem_of_mem_drop back)

theorem lacks_edit (lacks : Lacks o c.order) {e : Edit}
    (others : ∀ r ∈ e.inserted?, r.same o = false) : Lacks o (c.edit e).order := by
  cases e with
  | prepend r => exact lacks_cons.mpr ⟨others r rfl, lacks⟩
  | append r =>
    intro x member
    rcases mem_append_order member with member | rfl
    · exact lacks x member
    · exact others x rfl
  | push r => exact lacks_append.mpr ⟨lacks, lacks_cons.mpr ⟨others r rfl, lacks_nil⟩⟩
  | remove r =>
    rw [Composer.edit, remove_fst]
    exact lacks_eraseP lacks _

theorem lacks_edited (lacks : Lacks o c.order) {edits : List Edit}
    (others : ∀ e ∈ edits, ∀ r ∈ e.inserted?, r.same o = false) :
    Lacks o (c.edited edits).order := by
  induction edits generalizing c with
  | nil => exact lacks
  | cons e rest ih =>
    exact ih (lacks_edit lacks (others e List.mem_cons_self))
      fun later member => others later (List.mem_cons_of_mem e member)

/-- An anchor that is removed and not put in again is gone from the entries. -/
theorem Arranged.lacks_edited {s : Segments} (arranged : Arranged o c s) {edits : List Edit}
    {removed : Resolver} (member : .remove removed ∈ edits) (copy : removed.same o = true)
    (others : ∀ e ∈ edits, ∀ r ∈ e.inserted?, r.same o = false) :
    Lacks o (c.edited edits).order := by
  induction edits generalizing c s with
  | nil => cases member
  | cons e rest ih =>
    have later : ∀ e ∈ rest, ∀ r ∈ e.inserted?, r.same o = false := fun x member =>
      others x (List.mem_cons_of_mem e member)
    cases here : e.subject.same o with
    | false =>
      refine ih (arranged.edit here) ?_ later
      refine (List.mem_cons.mp member).resolve_left ?_
      rintro rfl
      rw [Edit.subject, copy] at here
      contradiction
    | true =>
      -- Only a removal can name the anchor.
      cases e with
      | remove r => exact Composer.lacks_edited (arranged.lacks_remove here) later
      | prepend r | append r | push r =>
        have unlike := others _ List.mem_cons_self r rfl
        rw [Edit.subject, unlike] at here
        contradiction

end

/-- What removing a resolver does: its first copy goes and is answered, or there is none. -/
inductive Removal (r : Resolver) (c : Composer) : Composer × Option Resolver → Prop
  | found {before after : List Resolver} {entry : Resolver}
      (copy : FirstCopy r c.order before entry after) :
      Removal r c ({ c with order := before ++ after }, some entry)
  | absent (lacks : Lacks r c.order) : Removal r c (c, none)

theorem removal_remove (r : Resolver) (c : Composer) : Removal r c (remove r c) := by
  rcases firstCopy_or_lacks r c.order with ⟨before, entry, after, found⟩ | lacks
  · rw [remove_of_firstCopy found]
    exact .found found
  · rw [remove_of_lacks lacks]
    exact .absent lacks

theorem arranged_around {o : Resolver} (plain : o.composer? = none) :
    Arranged o (around o) ⟨[], [], []⟩ := by
  rw [around, plain]
  exact ⟨rfl, rfl, lacks_nil, lacks_nil, lacks_nil⟩

/-- A composition built around a plain resolver keeps it for its anchor under all edits. While the
anchor is neither put in nor removed, the entries are those prepended, the latest first, the anchor,
those appended, the latest first, and those pushed, in order. A removal takes the first copy out and
answers it, or changes nothing. Prepended entries go first and pushed ones last. Appended ones
follow the first copy of the anchor, and go last where none is left, as when the anchor is removed
and not put in again. -/
theorem edits_keep_order (o : Resolver) (plain : o.composer? = none) (edits : List Edit) :
    let c := (around o).edited edits
    c.anchor = some o ∧
      ((∀ e ∈ edits, e.subject.same o = false) →
        c.order = (Segments.edited ⟨[], [], []⟩ edits).order o) ∧
      (∀ r, Removal r c (remove r c)) ∧
      ((∃ r, .remove r ∈ edits ∧ r.same o = true) →
        (∀ e ∈ edits, ∀ r ∈ e.inserted?, r.same o = false) → Lacks o c.order) ∧
      (∀ r, (prepend r c).order = r :: c.order ∧ (push r c).order = c.order ++ [r]) ∧
      (∀ before entry after, FirstCopy o c.order before entry after →
        ∀ r, (append r c).order = before ++ entry :: r :: after) ∧
      (Lacks o c.order → ∀ r, (append r c).order = c.order ++ [r]) := by
  have arranged := arranged_around plain
  have anchor := (anchor_edited (around o) edits).trans arranged.anchor
  refine ⟨anchor, fun others => (arranged.edited others).order, fun r => removal_remove r _, ?_,
    fun r => ⟨rfl, rfl⟩, fun before entry after found r => ?_, fun lacks r => ?_⟩
  · rintro ⟨r, member, copy⟩ others
    exact arranged.lacks_edited member copy others
  · rw [append_of_firstCopy anchor found]
  · rw [append_of_lacks (fun own same => ?_) r]
    rw [anchor] at same
    cases same
    exact lacks

/-- A resolver with an identity that reads its field from the parent value. -/
def numbered (id : Nat) : Resolver := .function ⟨id, .info, none⟩ Resolver.readParent

theorem edits_keep_order_with_repeated_entries :
    ∃ (o x : Resolver) (edits later : List Edit), o.composer? = none ∧
      (∀ e ∈ edits, e.subject.same o = false) ∧
      ((around o).edited edits).order.map (·.tag.id) = [1, 0, 4, 2, 3, 1] ∧
      (∀ e ∈ edits ++ later, ∀ r ∈ e.inserted?, r.same o = false) ∧
      let c := (around o).edited (edits ++ later)
      c.anchor = some o ∧ c.order.map (·.tag.id) = [1, 4, 2, 3, 1] ∧
        (append x c).order = c.order ++ [x] := by
  let edits : List Edit := [.prepend (numbered 1), .append (numbered 2), .push (numbered 3),
    .append (numbered 4), .prepend (numbered 1), .push (numbered 1), .remove (numbered 1),
    .remove (numbered 5)]
  let later : List Edit := [.remove (numbered 0)]
  have plain : (numbered 0).composer? = none := rfl
  have others : ∀ e ∈ edits, e.subject.same (numbered 0) = false := by decide
  have fresh : ∀ e ∈ edits ++ later, ∀ r ∈ e.inserted?, r.same (numbered 0) = false := by decide
  obtain ⟨_, order, _⟩ := edits_keep_order (numbered 0) plain edits
  obtain ⟨anchor, _, _, gone, _, _, last⟩ := edits_keep_order (numbered 0) plain (edits ++ later)
  have lacks := gone ⟨numbered 0, by simp [later], by simp⟩ fresh
  refine ⟨numbered 0, numbered 6, edits, later, plain, others, ?_, fresh, anchor, rfl, last lacks _⟩
  rw [order others]
  rfl

/-- Once the anchor has been put in again after it was removed, appended entries follow it and do
not go last. -/
theorem appends_follow_new_copies :
    ¬ ∀ (o removed r : Resolver) (edits later : List Edit), o.composer? = none →
      (remove removed ((around o).edited edits)).2 = some o →
      let c := (around o).edited (edits ++ .remove removed :: later)
      (append r c).order = c.order ++ [r] := by
  intro claim
  have last := claim (numbered 0) (numbered 0) (numbered 2) []
    [.push (numbered 0), .push (numbered 1)] rfl rfl
  have ids := congrArg (List.map (·.tag.id)) last
  exact absurd ids (by decide)

section
variable {o : Resolver} {c : Composer}

theorem around_eq (r : Resolver) : around r = ⟨r.entries, r.anchor?, r.patcher?, false⟩ := by
  rw [around, Resolver.entries, Resolver.anchor?, Resolver.patcher?]
  cases r.composer? <;> rfl

theorem prepends_eq (prepends : List Resolver) (c : Composer) :
    prepends.foldr prepend c = { c with order := prepends ++ c.order } := by
  induction prepends with
  | nil => rfl
  | cons r rest ih =>
    rw [List.foldr_cons, ih]
    rfl

/-- Entries that are appended one after the other, the last one first, come to stand in order after
the anchor. -/
theorem appends_of_firstCopy {before after : List Resolver} {entry : Resolver}
    (anchor : c.anchor = some o) (found : FirstCopy o c.order before entry after)
    (appends : List Resolver) :
    appends.foldr append c = { c with order := before ++ entry :: appends ++ after } := by
  induction appends with
  | nil => simp [← found.split]
  | cons r rest ih =>
    have again : FirstCopy o (rest.foldr append c).order before entry (rest ++ after) := by
      refine ⟨?_, found.copy, found.first⟩
      rw [ih, List.append_assoc, List.cons_append]
    have same : (rest.foldr append c).anchor = some o := by rw [ih, anchor]
    rw [List.foldr_cons, append_of_firstCopy same again, ih]
    simp

/-- Without a copy of the anchor they come to stand last, in reverse. -/
theorem appends_of_lacks {appends : List Resolver}
    (lacks : ∀ o ∈ c.anchor, Lacks o c.order ∧ Lacks o appends) :
    appends.foldr append c = { c with order := c.order ++ appends.reverse } := by
  induction appends with
  | nil => simp
  | cons r rest ih =>
    rw [List.foldr_cons, ih fun o own => ⟨(lacks o own).1, (lacks_cons.mp (lacks o own).2).2⟩,
      append_of_lacks fun o own => ?_]
    · simp
    · refine lacks_append.mpr ⟨(lacks o own).1, fun x member => ?_⟩
      exact (lacks o own).2 x (List.mem_cons_of_mem r (List.mem_reverse.mp member))

variable {r : Resolver} {prepends appends : List Resolver} {p : Option Patcher}

theorem wrap_of_appends {order : List Resolver}
    (made : appends.foldr append ⟨prepends ++ r.entries, r.anchor?, r.patcher?, false⟩ =
      ⟨order, r.anchor?, r.patcher?, false⟩) :
    wrap r prepends appends p = ⟨order, r.anchor?, p <|> r.patcher?, false⟩ := by
  rw [wrap, around_eq, prepends_eq]
  simp only
  rw [made]
  cases p <;> rfl

theorem wrap_of_firstCopy {before after : List Resolver} {entry : Resolver}
    (anchor : r.anchor? = some o) (others : Lacks o prepends)
    (found : FirstCopy o r.entries before entry after) :
    wrap r prepends appends p =
      ⟨prepends ++ before ++ entry :: appends ++ after, r.anchor?, p <|> r.patcher?, false⟩ :=
  wrap_of_appends (appends_of_firstCopy anchor (found.behind others) appends)

theorem wrap_of_lacks (others : ∀ o ∈ r.anchor?, Lacks o (prepends ++ appends))
    (gone : ∀ o ∈ r.anchor?, Lacks o r.entries) :
    wrap r prepends appends p =
      ⟨prepends ++ r.entries ++ appends.reverse, r.anchor?, p <|> r.patcher?, false⟩ := by
  refine wrap_of_appends (appends_of_lacks fun o own => ?_)
  obtain ⟨before, after⟩ := lacks_append.mp (others o own)
  exact ⟨lacks_append.mpr ⟨before, gone o own⟩, after⟩

/-- Wrapping a resolver puts the prepended entries first, in the order given, and the appended ones
as one block, in the order given, after the anchor, or last if the anchor is gone and there is no
more than one of them. The anchor stays, a given patcher takes the place of the own one, and the
composition is no layer of a merge. -/
theorem wrap_keeps_order (r : Resolver) (prepends appends : List Resolver) (p : Option Patcher)
    (others : ∀ o ∈ r.anchor?, Lacks o (prepends ++ appends))
    (settled : (∃ o ∈ r.anchor?, ¬ Lacks o r.entries) ∨ appends.length ≤ 1) :
    let w := wrap r prepends appends p
    ((∃ o before entry after, r.anchor? = some o ∧ FirstCopy o r.entries before entry after ∧
        w.order = prepends ++ before ++ entry :: appends ++ after) ∨
      ((∀ o ∈ r.anchor?, Lacks o r.entries) ∧ w.order = prepends ++ r.entries ++ appends)) ∧
    w.anchor = r.anchor? ∧ w.patcher = (p <|> r.patcher?) ∧ w.mergeLayer = false := by
  by_cases gone : ∀ o ∈ r.anchor?, Lacks o r.entries
  · have single : appends.length ≤ 1 := settled.resolve_left fun ⟨o, own, stands⟩ =>
      stands (gone o own)
    have reverse : appends.reverse = appends := by
      match appends, single with
      | [], _ => rfl
      | [_], _ => rfl
    rw [wrap_of_lacks others gone, reverse]
    exact ⟨Or.inr ⟨gone, rfl⟩, rfl, rfl, rfl⟩
  · obtain ⟨o, own, stands⟩ : ∃ o, r.anchor? = some o ∧ ¬ Lacks o r.entries := by
      simpa using gone
    obtain ⟨before, entry, after, found⟩ := (firstCopy_or_lacks o r.entries).resolve_right stands
    rw [wrap_of_firstCopy own (lacks_append.mp (others o own)).1 found]
    exact ⟨Or.inl ⟨o, before, entry, after, own, found, rfl⟩, rfl, rfl, rfl⟩

/-- A composition after edits, as a resolver. -/
def editedResolver (edits : List Edit) : Resolver :=
  .composed ⟨9, .info, none⟩ ((around (numbered 0)).edited edits)

theorem wrap_keeps_order_after_edits :
    (∃ (r : Resolver) (prepends appends : List Resolver),
      (∀ o ∈ r.anchor?, Lacks o (prepends ++ appends)) ∧ (∃ o ∈ r.anchor?, ¬ Lacks o r.entries) ∧
      (∃ o before entry after, r.anchor? = some o ∧ FirstCopy o r.entries before entry after ∧
        (wrap r prepends appends none).order = prepends ++ before ++ entry :: appends ++ after) ∧
      r.entries.map (·.tag.id) = [2, 0, 3, 1] ∧
      (wrap r prepends appends none).order.map (·.tag.id) = [4, 5, 2, 0, 6, 7, 3, 1]) ∧
    ∃ (r : Resolver) (prepends : List Resolver) (x : Resolver),
      (∀ o ∈ r.anchor?, Lacks o (prepends ++ [x])) ∧ (∀ o ∈ r.anchor?, Lacks o r.entries) ∧
      (wrap r prepends [x] none).order = prepends ++ r.entries ++ [x] ∧
      (wrap r prepends [x] none).anchor = r.anchor? ∧ r.anchor?.isSome = true := by
  let edits : List Edit := [.push (numbered 1), .prepend (numbered 2), .append (numbered 3)]
  let prepends := [numbered 4, numbered 5]
  constructor
  · let r := editedResolver edits
    let appends := [numbered 6, numbered 7]
    have others : ∀ o ∈ r.anchor?, Lacks o (prepends ++ appends) := by decide
    have stands : ∃ o ∈ r.anchor?, ¬ Lacks o r.entries := ⟨numbered 0, rfl, by decide⟩
    obtain ⟨order, _⟩ := wrap_keeps_order r prepends appends none others (Or.inl stands)
    have around := order.resolve_right fun gone => stands.elim fun o own => own.2 (gone.1 o own.1)
    exact ⟨r, prepends, appends, others, stands, around, rfl, rfl⟩
  · let r := editedResolver (edits ++ [.remove (numbered 0)])
    have others : ∀ o ∈ r.anchor?, Lacks o (prepends ++ [numbered 6]) := by decide
    have gone : ∀ o ∈ r.anchor?, Lacks o r.entries := by decide
    obtain ⟨order, anchor, _⟩ :=
      wrap_keeps_order r prepends [numbered 6] none others (Or.inr (Nat.le_refl 1))
    have last := order.resolve_left fun ⟨o, _, _, _, own, found, _⟩ => found.not_lacks (gone o own)
    exact ⟨r, prepends, numbered 6, others, gone, last.2, anchor, rfl⟩

/-- Where the anchor is gone, entries that are appended together go last in reverse. -/
theorem wrap_can_reverse :
    ¬ ∀ (r : Resolver) (prepends appends : List Resolver) (p : Option Patcher),
      (∀ o ∈ r.anchor?, Lacks o (prepends ++ appends)) → (∀ o ∈ r.anchor?, Lacks o r.entries) →
      (wrap r prepends appends p).order = prepends ++ r.entries ++ appends := by
  intro claim
  have order := claim (editedResolver [.remove (numbered 0)]) [] [numbered 1, numbered 2] none
    (by decide) (by decide)
  have ids := congrArg (List.map (·.tag.id)) order
  exact absurd ids (by decide)

end
end Composer
end SchemaStitch
