import SchemaStitch.Pare
import SchemaStitch.Proofs.Merge.Grouping
import SchemaStitch.Proofs.Merge.Roots
import SchemaStitch.Proofs.Schema.Members

/-! A consolidated document beside the document it is made of. It has the same fields if the types of
the document are each of one kind, and lists the same root operations if each kind is listed once; so
paring, which looks for roots in the consolidated document, agrees with the schema built from the
document wherever that schema does not leave its root operations unsaid beside something that is said
of the schema. -/
namespace SchemaStitch
open Sdl

namespace Merge

section
variable {α κ : Type} [DecidableEq κ] {ident : α → Option κ} {f : α → α → α} {P Q : α → Prop}

theorem exists_placed {item : α} {l : List α} (all : ∀ x ∈ l, P x) (own : P item)
    (kept : ∀ x y k, ident x = some k → ident y = some k → P x → P y → Q x ∨ Q y → Q (f x y))
    (stood : (∃ x ∈ l, Q x) ∨ Q item) : ∃ x ∈ placed ident f item l, Q x := by
  rcases placed_cases ident f item l with last | ⟨k, before, y, after, rfl, known, like, taken⟩
  · rw [last]
    rcases stood with ⟨x, member, stood⟩ | stood
    · exact ⟨x, List.mem_append_left _ member, stood⟩
    · exact ⟨item, by simp, stood⟩
  · rw [taken]
    have settled (stood : Q y ∨ Q item) : ∃ x ∈ before ++ f y item :: after, Q x :=
      ⟨f y item, by simp, kept y item k like known (all y (by simp)) own stood⟩
    rcases stood with ⟨x, member, stood⟩ | stood
    · rcases List.mem_append.mp member with member | member
      · exact ⟨x, List.mem_append_left _ member, stood⟩
      · rcases List.mem_cons.mp member with rfl | member
        · exact settled (Or.inl stood)
        · exact ⟨x, by simp [member], stood⟩
    · exact settled (Or.inr stood)

/-- What settling keeps of either item is in the list if it was in one of the two. -/
theorem exists_placedAll {left right : List α}
    (inside : ∀ x y k, ident x = some k → ident y = some k → P x → P y → P (f x y))
    (kept : ∀ x y k, ident x = some k → ident y = some k → P x → P y → Q x ∨ Q y → Q (f x y))
    (all : ∀ x ∈ left, P x) (own : ∀ x ∈ right, P x)
    (stood : (∃ x ∈ left, Q x) ∨ ∃ x ∈ right, Q x) : ∃ x ∈ placedAll ident f left right, Q x := by
  induction right generalizing left with
  | nil => exact stood.resolve_right (by simp)
  | cons item rest ih =>
    have item_inside := own item List.mem_cons_self
    have placed_inside := forall_placed inside all item_inside
    refine ih placed_inside (fun x member => own x (List.mem_cons_of_mem _ member)) ?_
    rcases stood with first | ⟨x, member, stood⟩
    · exact Or.inl (exists_placed all item_inside kept (Or.inl first))
    · rcases List.mem_cons.mp member with rfl | member
      · exact Or.inl (exists_placed all item_inside kept (Or.inr stood))
      · exact Or.inr ⟨x, member, stood⟩

theorem mem_names_written {name : α → κ} {left right : List α} {n : κ} :
    n ∈ (written name left right).map name ↔ n ∈ left.map name ∨ n ∈ right.map name := by
  have keeps : Keeps (named name) (fun _ y => (pure y : StateM Unit α)) name := by
    intro x y k _ like known
    have same := Option.some.inj (like.trans known.symm)
    exact ⟨same, same.symm⟩
  have members : n ∈ ((placeAll (named name) (fun _ y => (pure y : StateM Unit α)) left right).run
      ()).1.map name ↔ n ∈ left.map name ∨ n ∈ right.map name := mem_map_placeAll keeps () n
  rwa [placeAll_pure] at members

end

theorem names_fields_updated {a b : TypeBody} (same : a.kind = b.kind) (field : Name) :
    field ∈ (updatedBody a b).fields.map (·.name) ↔
      field ∈ a.fields.map (·.name) ∨ field ∈ b.fields.map (·.name) := by
  cases a with
  | object is fs =>
    cases b with
    | object js gs => exact mem_names_written
    | _ => cases same
  | interface is fs =>
    cases b with
    | interface js gs => exact mem_names_written
    | _ => cases same
  | _ => cases b <;> first | (cases same; done) | simp [updatedBody, TypeBody.fields]

theorem updated_gives_origin {x y : Definition} (same : x.key = y.key) {place : Name × Name}
    {kind : TypeKind} (gives : (updated x y).Gives place kind) :
    x.Gives place kind ∨ y.Gives place kind := by
  cases x with
  | type a =>
    cases y with
    | type b =>
      rw [updated] at gives
      split at gives
      · rename_i kinds
        obtain ⟨named, own_kind, given⟩ := gives
        rw [updatedBody_kind] at own_kind
        rcases (names_fields_updated kinds _).mp given with given | given
        · exact Or.inl ⟨named, kinds.trans own_kind, given⟩
        · exact Or.inr ⟨(Definition.Key.type.inj same).symm.trans named, own_kind, given⟩
      · exact Or.inr gives
    | _ => exact Or.inr gives
  | _ => cases y <;> exact Or.inr gives

theorem updated_gives {x y : Definition} (x_whole : x.Whole) (y_whole : y.Whole)
    (same : x.key = y.key) {place : Name × Name} {kind : TypeKind}
    (x_kind : ∀ own, x.Declares place.1 own → own = kind)
    (y_kind : ∀ own, y.Declares place.1 own → own = kind)
    (gives : x.Gives place kind ∨ y.Gives place kind) : (updated x y).Gives place kind := by
  cases x with
  | type a =>
    cases y with
    | type b =>
      have names : a.name = b.name := Definition.Key.type.inj same
      have named : a.name = place.1 := by
        rcases gives with ⟨named, _⟩ | ⟨named, _⟩
        · exact named
        · exact names.trans named
      have a_kind := x_kind a.body.kind ⟨named, rfl⟩
      have b_kind := y_kind b.body.kind ⟨names.symm.trans named, rfl⟩
      rw [updated, if_pos (a_kind.trans b_kind.symm)]
      refine ⟨named, (updatedBody_kind _ _).trans b_kind, ?_⟩
      rw [names_fields_updated (a_kind.trans b_kind.symm)]
      exact gives.imp (fun own => own.2.2) fun own => own.2.2
    | typeExtension => cases y_whole
    | _ => cases same
  | typeExtension => cases x_whole
  | schema | schemaExtension | directive | operation | fragment =>
    cases y with
    | type => cases same
    | typeExtension => cases y_whole
    | _ => rcases gives with gives | gives <;> cases gives

theorem blind_gives : Blind Definition.Gives := by
  intro d place kind
  cases d <;> rfl

theorem keys_of_identity {x y : Definition} {k : Definition.Key} (left : identity x = some k)
    (right : identity y = some k) : x.key = y.key :=
  (identity_eq_some.mp left).1.trans (identity_eq_some.mp right).1.symm

section
variable {d : Document} {place : Name × Name} {kind : TypeKind}

/-- A field of a consolidated document is given by the document. -/
theorem gives_of_consolidated (said : d.consolidated.Says Definition.Gives place kind) :
    d.Says Definition.Gives place kind := by
  obtain ⟨x, member, gives⟩ := said
  rw [consolidated_eq] at member
  have origin : ∀ x ∈ ((placeAll identity (fun x y => (pure (updated x y) : StateM Unit Definition))
      [] (d.map Definition.asDefinition)).run ()).1,
      ∀ place kind, x.Gives place kind → d.Says Definition.Gives place kind := by
    refine forall_placeAll (by simp) (fun x member place kind gives => ?_)
      (fun x y k _ left right x_origin y_origin place kind gives => ?_) ()
    · obtain ⟨y, stands, rfl⟩ := List.mem_map.mp member
      exact ⟨y, stands, (blind_gives y place kind).mp gives⟩
    · rcases updated_gives_origin (keys_of_identity left right) gives with gives | gives
      · exact x_origin place kind gives
      · exact y_origin place kind gives
  rw [placeAll_pure] at origin
  exact origin x member place kind gives

/-- A field that a document gives to a type of one kind is one of the consolidated document. -/
theorem gives_consolidated (said : d.Says Definition.Gives place kind)
    (one_kind : ∀ own, d.Says Definition.Declares place.1 own → own = kind) :
    d.consolidated.Says Definition.Gives place kind := by
  rw [consolidated_eq]
  refine exists_placedAll
    (P := fun x => x.Whole ∧ ∀ own, x.Declares place.1 own → own = kind)
    (fun x y k left right x_fits y_fits => ⟨updated_whole x_fits.1 y_fits.1, fun own declares => ?_⟩)
    (fun x y k left right x_fits y_fits => updated_gives x_fits.1 y_fits.1
      (keys_of_identity left right) x_fits.2 y_fits.2)
    (by simp) (fun x member => ?_) (Or.inr ?_)
  · have origin := kept_declares (p := (.keepRight : ConflictPolicy (StateM Unit))).origin x y ()
      place.1 own x_fits.1 y_fits.1 (keys_of_identity right left)
    rw [definitions_keepRight] at origin
    exact (origin declares).elim (x_fits.2 own) (y_fits.2 own)
  · obtain ⟨y, stands, rfl⟩ := List.mem_map.mp member
    exact ⟨y.whole_asDefinition, fun own declares =>
      one_kind own ⟨y, stands, (blind_declares y place.1 own).mp declares⟩⟩
  · obtain ⟨y, stands, gives⟩ := said
    exact ⟨_, List.mem_map_of_mem stands, (blind_gives y place kind).mpr gives⟩

variable {α β : Type} {F : Definition → α → β → Prop} {a : α} {b : β}

theorem says_of_consolidated (kept : Kept (.keepRight : ConflictPolicy (StateM Unit)) F)
    (blind : Blind F) (said : d.consolidated.Says F a b) : d.Says F a b := by
  have origin := consolidate_origin kept blind (d := d) (a := a) (b := b) ()
  rw [consolidate_keepRight] at origin
  exact origin said

theorem says_consolidated (kept : Kept (.keepRight : ConflictPolicy (StateM Unit)) F)
    (blind : Blind F) (said : d.Says F a b) (agrees : ∀ b', d.Says F a b' → b' = b) :
    d.consolidated.Says F a b := by
  have stands := consolidate_stands kept blind () said agrees
  rwa [consolidate_keepRight] at stands

theorem whole_consolidated (d : Document) : ∀ x ∈ d.consolidated, x.Whole := by
  have whole := consolidate_whole (p := (.keepRight : ConflictPolicy (StateM Unit))) d ()
  rwa [consolidate_keepRight] at whole

theorem consolidated_again (d : Document) : d.consolidated.consolidated = d.consolidated := by
  have unchanged := consolidate_eq_pure (.keepRight : ConflictPolicy Id) (whole_consolidated d)
    (nodup_consolidated d)
  rwa [consolidate_keepRight] at unchanged

theorem mem_keys_consolidated {k : Definition.Key} :
    k ∈ d.consolidated.map Definition.key ↔ k ∈ d.map Definition.key := by
  have keys := mem_keys_consolidate (p := (.keepRight : ConflictPolicy (StateM Unit))) d () k
  rwa [consolidate_keepRight] at keys

theorem named_consolidated (named : ∀ x ∈ d, x.key ≠ .executable none) :
    ∀ x ∈ d.consolidated, x.key ≠ .executable none := by
  intro x member anonymous
  obtain ⟨y, y_member, same⟩ :=
    List.mem_map.mp (mem_keys_consolidated.mp (List.mem_map_of_mem member))
  exact named y y_member (same.trans anonymous)

theorem distinct_consolidated {part : Part} (own : ∀ x ∈ d, x.Distinct part) :
    ∀ x ∈ d.consolidated, x.Distinct part := by
  have distinct := consolidate_distinct keepRight_keepsNames own ()
  rwa [consolidate_keepRight] at distinct

end

theorem mem_rootNames_nil {type : Name} :
    type ∈ Pare.rootNames [] ↔ ∃ kind : OperationKind, type = kind.defaultRoot := by
  simp only [Pare.rootNames, List.mem_map]
  constructor
  · rintro ⟨kind, _, rfl⟩
    exact ⟨kind, rfl⟩
  · rintro ⟨kind, rfl⟩
    exact ⟨kind, by cases kind <;> decide, rfl⟩

/-- The roots that paring finds in a document: those that its schema definition lists, else the
conventional ones. -/
theorem mem_rootNames {d : Document} (whole : ∀ x ∈ d, x.Whole)
    (nodup : (d.filterMap identity).Nodup) {type : Name} :
    type ∈ Pare.rootNames d ↔ (∃ kind, d.Says Definition.Lists kind type) ∨
      (¬ d.Says Definition.OfSchema () () ∧ ∃ kind : OperationKind, type = kind.defaultRoot) := by
  induction d with
  | nil => simp [mem_rootNames_nil, Document.Says]
  | cons x rest ih =>
    have rest_whole := fun y member => whole y (List.mem_cons_of_mem x member)
    have rest_nodup := nodup.sublist ((List.sublist_cons_self x rest).filterMap identity)
    have aside (lists : ∀ kind name, ¬ x.Lists kind name) (silent : ¬ x.OfSchema () ())
        (skips : Pare.rootNames (x :: rest) = Pare.rootNames rest) :
        type ∈ Pare.rootNames (x :: rest) ↔ (∃ kind, Document.Says Definition.Lists (x :: rest) kind
          type) ∨ (¬ Document.Says Definition.OfSchema (x :: rest) () () ∧
            ∃ kind : OperationKind, type = kind.defaultRoot) := by
      rw [skips, ih rest_whole rest_nodup]
      simp [Document.Says, lists, silent]
    cases x with
    | schemaExtension => cases whole _ List.mem_cons_self
    | typeExtension => cases whole _ List.mem_cons_self
    | schema s =>
      -- No other definition is one of the schema.
      have only (y : Definition) (member : y ∈ rest) (kind : OperationKind) : ¬ y.Lists kind type := by
        intro lists
        have same : identity y = identity (.schema s) := by
          cases y <;> first | rfl | cases lists
        rw [List.filterMap_cons] at nodup
        simp only [identity, Definition.key, reduceCtorEq, if_false] at nodup same
        exact (List.nodup_cons.mp nodup).1 (List.mem_filterMap.mpr ⟨y, member, same⟩)
      have spoken : Document.Says Definition.OfSchema (.schema s :: rest) () () :=
        ⟨_, List.mem_cons_self, trivial⟩
      simp only [spoken, not_true_eq_false, false_and, or_false]
      constructor
      · intro listed
        obtain ⟨⟨kind, _⟩, member, rfl⟩ := List.mem_map.mp listed
        exact ⟨kind, _, List.mem_cons_self, member⟩
      · rintro ⟨kind, y, member, lists⟩
        rcases List.mem_cons.mp member with rfl | member
        · exact List.mem_map.mpr ⟨_, lists, rfl⟩
        · exact absurd lists (only y member kind)
    | type | directive | operation | fragment =>
      exact aside (fun _ _ => id) id rfl

end Merge

/-- Whether a document speaks of the schema in extensions only and lists no root operation there. -/
def Sdl.Document.RootsUnsaid (d : Document) : Prop :=
  Schema.schemaDefinitions d = [] ∧ Schema.schemaExtensions d ≠ [] ∧
    ∀ e ∈ Schema.schemaExtensions d, e.operations = []

instance (d : Document) : Decidable d.RootsUnsaid :=
  inferInstanceAs (Decidable (_ ∧ _ ∧ _))

theorem Sdl.Document.rootsUnsaid_of_unlisted {d : Document}
    (undefined : Schema.schemaDefinitions d = []) (said : d.Says Definition.OfSchema () ())
    (unlisted : ∀ kind name, ¬ d.Says Definition.Lists kind name) : d.RootsUnsaid := by
  refine ⟨undefined, ?_, fun e member => ?_⟩
  · obtain ⟨x, member, own⟩ := said
    cases x with
    | schema s =>
      have written := Schema.mem_schemaDefinitions.mpr member
      simp [undefined] at written
    | schemaExtension e => exact List.ne_nil_of_mem (Schema.mem_schemaExtensions.mpr member)
    | _ => cases own
  · refine List.eq_nil_iff_forall_not_mem.mpr fun operation listed => ?_
    exact unlisted operation.1 operation.2 ⟨_, Schema.mem_schemaExtensions.mp member, listed⟩

theorem Sdl.Document.RootsUnsaid.ofSchema {d : Document} (unsaid : d.RootsUnsaid) :
    d.Says Definition.OfSchema () () := by
  obtain ⟨e, member⟩ := List.exists_mem_of_ne_nil _ unsaid.2.1
  exact ⟨_, Schema.mem_schemaExtensions.mp member, trivial⟩

theorem Sdl.Document.RootsUnsaid.unlisted {d : Document} (unsaid : d.RootsUnsaid)
    (kind : OperationKind) (name : Name) : ¬ d.Says Definition.Lists kind name := by
  rintro ⟨x, member, lists⟩
  cases x with
  | schema s =>
    have written := Schema.mem_schemaDefinitions.mpr member
    simp [unsaid.1] at written
  | schemaExtension e =>
    have empty := unsaid.2.2 e (Schema.mem_schemaExtensions.mpr member)
    simp [Definition.Lists, empty] at lists
  | _ => cases lists

namespace Schema.Adopts
open Merge

variable {d : Document} {s : Schema} {type : Name}

theorem isRoot_iff_root? : s.isRoot type = true ↔ ∃ kind, s.root? kind = some type := by
  simp only [isRoot, roots, List.any_eq_true, beq_iff_eq, List.mem_filterMap]
  constructor
  · rintro ⟨_, ⟨kind, _, found⟩, rfl⟩
    obtain ⟨name, root, rfl⟩ := Option.map_eq_some_iff.mp found
    exact ⟨kind, root⟩
  · rintro ⟨kind, root⟩
    exact ⟨(kind, type), ⟨kind, by cases kind <;> decide, by simp [root]⟩, rfl⟩

theorem lists_consolidated (adopts : Adopts d s) (kind : OperationKind) :
    d.consolidated.Says Definition.Lists kind type ↔ d.Says Definition.Lists kind type :=
  ⟨says_of_consolidated kept_lists blind_lists,
    fun own => says_consolidated kept_lists blind_lists own (adopts.lists_agree own)⟩

theorem ofSchema_consolidated (d : Document) :
    d.consolidated.Says Definition.OfSchema () () ↔ d.Says Definition.OfSchema () () :=
  ⟨says_of_consolidated kept_ofSchema blind_ofSchema,
    fun own => says_consolidated kept_ofSchema blind_ofSchema own fun _ _ => rfl⟩

/-- The roots of a consolidated document are the types that the document lists as roots or, where it
says nothing of the schema, those with conventional names. -/
theorem mem_rootNames_consolidated (adopts : Adopts d s) :
    type ∈ Pare.rootNames d.consolidated ↔ (∃ kind, d.Says Definition.Lists kind type) ∨
      (¬ d.Says Definition.OfSchema () () ∧ ∃ kind : OperationKind, type = kind.defaultRoot) := by
  rw [mem_rootNames (whole_consolidated d) (nodup_consolidated d), ofSchema_consolidated]
  simp only [adopts.lists_consolidated]

/-- The roots of a schema are those that its document lists or, where the document says nothing of
the schema or leaves the roots unsaid, the conventional objects. -/
theorem isRoot_iff_listed (adopts : Adopts d s) :
    s.isRoot type = true ↔ (∃ kind, d.Says Definition.Lists kind type) ∨
      ((¬ d.Says Definition.OfSchema () () ∨ d.RootsUnsaid) ∧
        (∃ kind : OperationKind, type = kind.defaultRoot) ∧
        ∃ t ∈ s.types, t.name = type ∧ t.kind = .object) := by
  rw [isRoot_iff_root?]
  constructor
  · rintro ⟨kind, root⟩
    rcases adopts.lists_or_unstated root with lists | ⟨undefined, unlisted⟩
    · exact Or.inl ⟨kind, lists⟩
    · obtain ⟨conventional, object⟩ := (adopts.root_origin root).resolve_left (unlisted kind type)
      refine Or.inr ⟨?_, ⟨kind, conventional⟩, object⟩
      by_cases said : d.Says Definition.OfSchema () ()
      · exact Or.inr (d.rootsUnsaid_of_unlisted undefined said unlisted)
      · exact Or.inl said
  · rintro (⟨kind, lists⟩ | ⟨unsaid, ⟨kind, rfl⟩, t, member, named, object⟩)
    · exact ⟨kind, adopts.root_of_lists lists⟩
    · rcases unsaid with silent | ⟨undefined, _, unlisted⟩
      · exact ⟨kind, adopts.root_implied silent member named object⟩
      · exact ⟨kind, adopts.root_unlisted undefined unlisted member named object⟩

theorem isRoot_iff (adopts : Adopts d s)
    (spoken : d.Says Definition.OfSchema () () → ∃ kind name, d.Says Definition.Lists kind name) :
    s.isRoot type = true ↔ (∃ kind, d.Says Definition.Lists kind type) ∨
      (¬ d.Says Definition.OfSchema () () ∧ (∃ kind : OperationKind, type = kind.defaultRoot) ∧
        ∃ t ∈ s.types, t.name = type ∧ t.kind = .object) := by
  have said : ¬ d.RootsUnsaid := fun unsaid => by
    obtain ⟨kind, name, listed⟩ := spoken unsaid.ofSchema
    exact unsaid.unlisted kind name listed
  rw [adopts.isRoot_iff_listed, or_iff_left said]

theorem isRoot_object_iff (adopts : Adopts d s)
    (object : d.Says Definition.Declares type .object) :
    s.isRoot type = true ↔ (∃ kind, d.Says Definition.Lists kind type) ∨
      ((¬ d.Says Definition.OfSchema () () ∨ d.RootsUnsaid) ∧
        ∃ kind : OperationKind, type = kind.defaultRoot) := by
  rw [adopts.isRoot_iff_listed]
  refine or_congr_right (and_congr_right fun _ => and_iff_left_of_imp ?_)
  rintro ⟨kind, rfl⟩
  obtain ⟨t, member, named⟩ := adopts.type_of_declares object (defaultRoot_custom kind)
  exact ⟨t, member, named, adopts.kind_of_declares object member named⟩

end Schema.Adopts
end SchemaStitch
