import Mathlib.Data.List.Nodup
import SchemaStitch.Schema.Build
import SchemaStitch.Schema.Validity

/-! What a document says of its schema, definition by definition, and what of it the schema that is
built from the document has. -/
namespace SchemaStitch
open Sdl

namespace Sdl.Definition

/-- Whether a definition lists a root operation. -/
def Lists : Definition → OperationKind → Name → Prop
  | .schema s, kind, name | .schemaExtension s, kind, name => (kind, name) ∈ s.operations
  | _, _, _ => False

/-- Whether a definition is of a type of a kind. -/
def Declares : Definition → Name → TypeKind → Prop
  | .type t, name, kind | .typeExtension t, name, kind => t.name = name ∧ t.body.kind = kind
  | _, _, _ => False

/-- Whether a definition is of the schema; its subject and value do not matter. -/
def OfSchema : Definition → Unit → Unit → Prop
  | .schema _, _, _ | .schemaExtension _, _, _ => True
  | _, _, _ => False

instance (d : Definition) (kind : OperationKind) (name : Name) : Decidable (d.Lists kind name) :=
  match d with
  | .schema s | .schemaExtension s => inferInstanceAs (Decidable ((kind, name) ∈ s.operations))
  | .type _ | .typeExtension _ | .directive _ | .operation _ | .fragment _ => instDecidableFalse

instance (d : Definition) (own other : Unit) : Decidable (d.OfSchema own other) :=
  match d with
  | .schema _ | .schemaExtension _ => instDecidableTrue
  | .type _ | .typeExtension _ | .directive _ | .operation _ | .fragment _ => instDecidableFalse

instance (d : Definition) (name : Name) (kind : TypeKind) : Decidable (d.Declares name kind) :=
  match d with
  | .type t | .typeExtension t => inferInstanceAs (Decidable (t.name = name ∧ t.body.kind = kind))
  | .schema _ | .schemaExtension _ | .directive _ | .operation _ | .fragment _ => instDecidableFalse

end Sdl.Definition

/-- Whether a document says that a subject has a value, with what its definitions say. -/
def Sdl.Document.Says {α β : Type} (F : Definition → α → β → Prop) (d : Document) (a : α) (b : β) :
    Prop := ∃ x ∈ d, F x a b

instance {α β : Type} (F : Definition → α → β → Prop) [∀ x a b, Decidable (F x a b)] (d : Document)
    (a : α) (b : β) : Decidable (d.Says F a b) := inferInstanceAs (Decidable (∃ x ∈ d, F x a b))

namespace Schema

/-- The extensions of types that a document does not define. -/
def orphans (d : Document) : List TypeDefinition :=
  (typeExtensions d).filter fun e =>
    !((typeDefinitions d).map (·.name) ++ standardScalars).contains e.name

/-- What building a schema makes of a document. -/
structure Built (policy : OrphanPolicy) (d : Document) (s : Schema) : Prop where
  unmixed : hasExecutable d = false
  known : distinct ((typeDefinitions d).map (·.name)) = true
  custom : ∀ t ∈ typeDefinitions d, t.name ∉ standardScalars
  standard : s.standard = standardDefinitions.map (withExtensions (typeExtensions d))
  types : s.types = (typeDefinitions d).map (withExtensions (typeExtensions d)) ++
    adoptedTypes (orphans d)
  coherent : ∀ t ∈ s.standard ++ s.types, isCoherent t = true
  extensions : s.extensions = schemaExtensions d
  base : schemaDefinitions d = [s.base] ∨
    (schemaDefinitions d = [] ∧ s.base.operations =
      if policy == .adopt && (schemaExtensions d).any (fun e => !e.operations.isEmpty) then []
      else impliedOperations s.types)
  operations : distinct (s.operations.map fun (kind, _) => kind.word) = true

theorem built_of_build? {policy : OrphanPolicy} {d : Document} {s : Schema}
    (built : build? policy d = some s) : Built policy d s := by
  rw [build?] at built
  extract_lets definitions extensions standard known orphaned types directives added finish implied
    stated bases checked coherent accepted at built
  have finished {base : SchemaDefinition} (done : finish base = some s) :
      s = ⟨base, added, directives, standard, types⟩ ∧
        distinct (s.operations.map fun (kind, _) => kind.word) = true := by
    dsimp only [finish] at done
    split at done
    · simp at done
    · rename_i single
      cases done
      exact ⟨rfl, by simpa using single⟩
  split at built
  · simp at built
  rename_i unmixed
  split at built
  · simp at built
  rename_i names
  dsimp only [accepted] at built
  split at built
  · simp at built
  dsimp only [coherent] at built
  split at built
  · simp at built
  rename_i fits
  dsimp only [checked] at built
  split at built
  · simp at built
  dsimp only [bases] at built
  have unmixed : hasExecutable d = false := by simpa using unmixed
  simp only [Bool.or_eq_true, not_or, Bool.not_eq_true, Bool.not_eq_false', List.any_eq_false]
    at names
  have custom : ∀ t ∈ typeDefinitions d, t.name ∉ standardScalars := by
    intro t member reserved
    have free := names.2 t.name (List.mem_map_of_mem member)
    simp [reserved] at free
  simp only [Bool.not_eq_true, Bool.not_eq_false', List.all_eq_true] at fits
  split at built
  · rename_i own only
    obtain ⟨rfl, single⟩ := finished built
    exact ⟨unmixed, names.1, custom, rfl, rfl, fits, rfl, Or.inl only, single⟩
  · rename_i without
    split at built
    · simp at built
    · obtain ⟨rfl, single⟩ := finished built
      exact ⟨unmixed, names.1, custom, rfl, rfl, fits, rfl, Or.inr ⟨without, rfl⟩, single⟩
  · simp at built

/-- What building a schema with orphans adopted makes of a document. -/
structure Adopts (d : Document) (s : Schema) : Prop where
  known : distinct ((typeDefinitions d).map (·.name)) = true
  standard : s.standard = standardDefinitions.map (withExtensions (typeExtensions d))
  types : s.types = (typeDefinitions d).map (withExtensions (typeExtensions d)) ++
    adoptedTypes (orphans d)
  coherent : ∀ t ∈ s.types, isCoherent t = true
  extensions : s.extensions = schemaExtensions d
  base : schemaDefinitions d = [s.base] ∨
    (schemaDefinitions d = [] ∧ s.base.operations =
      if (schemaExtensions d).any (fun e => !e.operations.isEmpty) then []
      else impliedOperations s.types)
  operations : distinct (s.operations.map fun (kind, _) => kind.word) = true

theorem adopts_of_build? {d : Document} {s : Schema} (built : build? .adopt d = some s) :
    Adopts d s where
  known := (built_of_build? built).known
  standard := (built_of_build? built).standard
  types := (built_of_build? built).types
  coherent := fun t member => (built_of_build? built).coherent t (List.mem_append_right _ member)
  extensions := (built_of_build? built).extensions
  base := (built_of_build? built).base
  operations := (built_of_build? built).operations

theorem distinct_iff_nodup (names : List Name) : distinct names = true ↔ names.Nodup := by
  induction names with
  | nil => simp [distinct]
  | cons n rest ih => simp [distinct, ih]

/-- Of operations of distinct kinds, each is found by its kind. -/
theorem lookup_of_mem {operations : List (OperationKind × Name)}
    (single : distinct (operations.map fun (kind, _) => kind.word) = true) {kind : OperationKind}
    {name : Name} (member : (kind, name) ∈ operations) :
    operations.lookup kind = some name := by
  rw [distinct_iff_nodup] at single
  induction operations with
  | nil => simp at member
  | cons first rest ih =>
    obtain ⟨own, value⟩ := first
    obtain ⟨fresh, single⟩ := List.nodup_cons.mp single
    by_cases same : kind = own
    · subst own
      rcases List.mem_cons.mp member with first | later
      · cases first
        simp
      · exact absurd (List.mem_map.mpr ⟨(kind, name), later, rfl⟩) fresh
    · have later : (kind, name) ∈ rest := by
        rcases List.mem_cons.mp member with first | later
        · cases first
          exact absurd rfl same
        · exact later
      rw [List.lookup_cons, beq_false_of_ne same]
      exact ih single later

theorem mem_of_lookup {operations : List (OperationKind × Name)} {kind : OperationKind}
    {name : Name} (found : operations.lookup kind = some name) : (kind, name) ∈ operations := by
  induction operations with
  | nil => simp at found
  | cons first rest ih =>
    obtain ⟨own, value⟩ := first
    by_cases same : kind = own
    · subst own
      simp only [List.lookup_cons, beq_self_eq_true, Option.some.injEq] at found
      rw [found]
      exact List.mem_cons_self
    · rw [List.lookup_cons, beq_false_of_ne same] at found
      exact List.mem_cons_of_mem _ (ih found)

/-- The first orphan of each name, and no others. -/
theorem firsts_spec (orphans : List TypeDefinition) (before : List TypeDefinition) :
    let firsts := orphans.foldl
      (fun acc e => if acc.any (·.name == e.name) then acc else acc ++ [e]) before
    (∀ e ∈ firsts, e ∈ before ∨ e ∈ orphans) ∧
      ∀ e, e ∈ before ∨ e ∈ orphans → ∃ first ∈ firsts, first.name = e.name := by
  induction orphans generalizing before with
  | nil =>
    refine ⟨fun e member => Or.inl member, ?_⟩
    rintro e (member | member)
    · exact ⟨e, member, rfl⟩
    · simp at member
  | cons o rest ih =>
    rw [List.foldl_cons]
    split
    · rename_i seen
      obtain ⟨origin, reached⟩ := ih before
      obtain ⟨b, b_member, same⟩ := List.any_eq_true.mp seen
      refine ⟨fun e member => (origin e member).imp id (List.mem_cons_of_mem _), ?_⟩
      rintro e (member | member)
      · exact reached e (Or.inl member)
      · rcases List.mem_cons.mp member with rfl | member
        · obtain ⟨first, first_member, named⟩ := reached b (Or.inl b_member)
          exact ⟨first, first_member, named.trans (beq_iff_eq.mp same)⟩
        · exact reached e (Or.inr member)
    · obtain ⟨origin, reached⟩ := ih (before ++ [o])
      constructor
      · intro e member
        rcases origin e member with member | member
        · rcases List.mem_append.mp member with member | member
          · exact Or.inl member
          · rw [List.mem_singleton.mp member]
            exact Or.inr List.mem_cons_self
        · exact Or.inr (List.mem_cons_of_mem _ member)
      · rintro e (member | member)
        · exact reached e (Or.inl (List.mem_append_left _ member))
        · rcases List.mem_cons.mp member with rfl | member
          · exact reached e (Or.inl (List.mem_append_right _ (List.mem_singleton_self e)))
          · exact reached e (Or.inr member)

theorem nodup_firsts (orphans : List TypeDefinition) {before : List TypeDefinition}
    (nodup : (before.map (·.name)).Nodup) :
    ((orphans.foldl (fun acc e => if acc.any (·.name == e.name) then acc else acc ++ [e])
      before).map (·.name)).Nodup := by
  induction orphans generalizing before with
  | nil => exact nodup
  | cons o rest ih =>
    rw [List.foldl_cons]
    split
    · exact ih nodup
    · rename_i new
      refine ih ?_
      rw [List.map_append]
      refine nodup.append (List.nodup_singleton _) ?_
      simpa using new

theorem adopted_origin {orphans : List TypeDefinition} {t : SchemaType}
    (member : t ∈ adoptedTypes orphans) : ∃ e ∈ orphans,
      t = withExtensions orphans ⟨none, e.name, [], .empty e.body.kind⟩ := by
  obtain ⟨e, first, rfl⟩ := List.mem_map.mp member
  rcases (firsts_spec orphans []).1 e first with none | stands
  · simp at none
  · exact ⟨e, stands, rfl⟩

theorem adopted_of_orphan {orphans : List TypeDefinition} {e : TypeDefinition}
    (member : e ∈ orphans) : ∃ t ∈ adoptedTypes orphans, t.name = e.name := by
  obtain ⟨first, stands, named⟩ := (firsts_spec orphans []).2 e (Or.inr member)
  exact ⟨_, List.mem_map_of_mem stands, named⟩

/-- No two types of a schema have one name, and no two fields of one of its types, as it is for every
schema that is built from a document. -/
structure Distinct (s : Schema) : Prop where
  types : s.typeNames.Nodup
  fields : ∀ t ∈ s.types, (t.body.fields.map (·.name)).Nodup

/-- The schema that is built from a document has distinct names. -/
theorem distinct_of_build? {policy : OrphanPolicy} {d : Document} {s : Schema}
    (built : build? policy d = some s) : s.Distinct := by
  have made := built_of_build? built
  constructor
  · have defined := (distinct_iff_nodup _).mp made.known
    have adopted : ((adoptedTypes (orphans d)).map (·.name)).Nodup := by
      rw [adoptedTypes, List.map_map]
      exact nodup_firsts (orphans d) List.nodup_nil
    rw [typeNames, made.types, List.map_append, List.map_map]
    refine defined.append adopted ?_
    rintro name known member
    obtain ⟨t, stands, rfl⟩ := List.mem_map.mp member
    obtain ⟨e, orphan, rfl⟩ := adopted_origin stands
    have unknown := (List.mem_filter.mp orphan).2
    simp only [List.contains_eq_mem, Bool.not_eq_true', decide_eq_false_iff_not,
      List.mem_append, not_or] at unknown
    exact unknown.1 known
  · intro t member
    have fits := made.coherent t (List.mem_append_right _ member)
    simp only [isCoherent, Bool.and_eq_true] at fits
    have members := (distinct_iff_nodup _).mp fits.2
    cases body : t.body with
    | object | interface => simpa [body, TypeBody.memberNames, TypeBody.fields] using members
    | _ => exact List.nodup_nil

theorem Distinct.of_validate? {raw s : Schema} (distinct : raw.Distinct)
    (valid : raw.validate? = some s) : s.Distinct := by
  rw [validate?, Option.ite_none_right_eq_some] at valid
  obtain rfl := Option.some.inj valid.2
  exact ⟨distinct.types, distinct.fields⟩

theorem kind_empty (kind : TypeKind) : (TypeBody.empty kind).kind = kind := by
  cases kind <;> rfl

theorem defaultRoot_custom (kind : OperationKind) : kind.defaultRoot ∉ standardScalars := by
  cases kind <;> decide

theorem mem_picked {β : Type} {pick : Definition → Option β} {made : β → Definition}
    (picks : ∀ x b, pick x = some b ↔ x = made b) {d : Document} {b : β} :
    b ∈ d.filterMap pick ↔ made b ∈ d := by
  simp [List.mem_filterMap, picks]

theorem mem_typeDefinitions {d : Document} {t : TypeDefinition} :
    t ∈ typeDefinitions d ↔ Definition.type t ∈ d :=
  mem_picked fun x t => by cases x <;> simp

theorem mem_typeExtensions {d : Document} {t : TypeDefinition} :
    t ∈ typeExtensions d ↔ Definition.typeExtension t ∈ d :=
  mem_picked fun x t => by cases x <;> simp

theorem mem_schemaDefinitions {d : Document} {s : SchemaDefinition} :
    s ∈ schemaDefinitions d ↔ Definition.schema s ∈ d :=
  mem_picked fun x s => by cases x <;> simp

theorem mem_schemaExtensions {d : Document} {s : SchemaDefinition} :
    s ∈ schemaExtensions d ↔ Definition.schemaExtension s ∈ d :=
  mem_picked fun x s => by cases x <;> simp

namespace Adopts

variable {d : Document} {s : Schema} {kind : OperationKind} {name : Name}

theorem lists_mem (adopts : Adopts d s) (said : d.Says Definition.Lists kind name) :
    (kind, name) ∈ s.operations := by
  obtain ⟨x, member, lists⟩ := said
  rw [Schema.operations]
  cases x with
  | schema own =>
    have own_member := mem_schemaDefinitions.mpr member
    rcases adopts.base with only | ⟨without, _⟩
    · rw [only, List.mem_singleton] at own_member
      subst own
      exact List.mem_append_left _ lists
    · simp [without] at own_member
  | schemaExtension own =>
    have own_member := mem_schemaExtensions.mpr member
    rw [← adopts.extensions] at own_member
    exact List.mem_append_right _ (List.mem_flatMap.mpr ⟨own, own_member, lists⟩)
  | _ => cases lists

/-- A root operation that is listed is one of the schema. -/
theorem root_of_lists (adopts : Adopts d s) (said : d.Says Definition.Lists kind name) :
    s.root? kind = some name := lookup_of_mem adopts.operations (adopts.lists_mem said)

theorem lists_agree (adopts : Adopts d s) (said : d.Says Definition.Lists kind name) (other : Name)
    (also : d.Says Definition.Lists kind other) : other = name :=
  Option.some.inj ((adopts.root_of_lists also).symm.trans (adopts.root_of_lists said))

/-- A root operation of the schema is listed, or it goes without saying. -/
theorem root_origin (adopts : Adopts d s) (root : s.root? kind = some name) :
    d.Says Definition.Lists kind name ∨
      (name = kind.defaultRoot ∧ ∃ t ∈ s.types, t.name = name ∧ t.kind = .object) := by
  rcases List.mem_append.mp (mem_of_lookup root) with based | added
  · rcases adopts.base with only | ⟨_, made⟩
    · have own : s.base ∈ schemaDefinitions d := by simp [only]
      exact Or.inl ⟨_, mem_schemaDefinitions.mp own, based⟩
    · rw [made] at based
      split at based
      · simp at based
      · obtain ⟨conventional, object⟩ := List.mem_filter.mp based
        obtain ⟨own, _, pair⟩ := List.mem_map.mp conventional
        cases pair
        obtain ⟨t, member, fits⟩ := List.any_eq_true.mp object
        simp only [Bool.and_eq_true, beq_iff_eq] at fits
        exact Or.inr ⟨rfl, t, member, fits⟩
  · obtain ⟨own, member, lists⟩ := List.mem_flatMap.mp added
    rw [adopts.extensions] at member
    exact Or.inl ⟨_, mem_schemaExtensions.mp member, lists⟩

/-- Where no root operation is listed and the schema is not defined, an object type with a conventional
name is a root. -/
theorem root_unlisted (adopts : Adopts d s) (undefined : schemaDefinitions d = [])
    (unlisted : ∀ e ∈ schemaExtensions d, e.operations = []) {t : SchemaType} (member : t ∈ s.types)
    (named : t.name = kind.defaultRoot) (object : t.kind = .object) :
    s.root? kind = some kind.defaultRoot := by
  have implied : (kind, kind.defaultRoot) ∈ impliedOperations s.types := by
    refine List.mem_filter.mpr ⟨List.mem_map.mpr ⟨kind, by cases kind <;> decide, rfl⟩, ?_⟩
    exact List.any_eq_true.mpr ⟨t, member, by simp [named, object]⟩
  have unstated : (schemaExtensions d).any (fun e => !e.operations.isEmpty) = false :=
    List.any_eq_false.mpr fun e stands => by simp [unlisted e stands]
  have based : (kind, kind.defaultRoot) ∈ s.operations := by
    refine List.mem_append_left _ ?_
    rcases adopts.base with only | ⟨_, made⟩
    · simp [undefined] at only
    · rwa [made, unstated]
  exact lookup_of_mem adopts.operations based

theorem root_implied (adopts : Adopts d s) (silent : ¬ d.Says Definition.OfSchema () ())
    {t : SchemaType} (member : t ∈ s.types) (named : t.name = kind.defaultRoot)
    (object : t.kind = .object) : s.root? kind = some kind.defaultRoot := by
  refine adopts.root_unlisted (List.eq_nil_iff_forall_not_mem.mpr fun own stands => ?_)
    (fun e stands => absurd ⟨_, mem_schemaExtensions.mp stands, trivial⟩ silent) member named object
  exact silent ⟨_, mem_schemaDefinitions.mp stands, trivial⟩

/-- What a document declares is a type of the schema. -/
theorem type_of_declares (adopts : Adopts d s) {own : TypeKind}
    (said : d.Says Definition.Declares name own) (custom : name ∉ standardScalars) :
    ∃ t ∈ s.types, t.name = name := by
  rw [adopts.types]
  have defined {t : TypeDefinition} (member : t ∈ typeDefinitions d) (named : t.name = name) :
      ∃ t ∈ (typeDefinitions d).map (withExtensions (typeExtensions d)) ++
        adoptedTypes (orphans d), t.name = name :=
    ⟨_, List.mem_append_left _ (List.mem_map_of_mem member), named⟩
  obtain ⟨x, member, declares⟩ := said
  cases x with
  | type t => exact defined (mem_typeDefinitions.mpr member) declares.1
  | typeExtension e =>
    by_cases known : name ∈ (typeDefinitions d).map (·.name)
    · obtain ⟨t, stands, named⟩ := List.mem_map.mp known
      exact defined stands named
    · have orphan : e ∈ orphans d := by
        refine List.mem_filter.mpr ⟨mem_typeExtensions.mpr member, ?_⟩
        rw [declares.1]
        simp [known, custom]
      obtain ⟨t, stands, named⟩ := adopted_of_orphan orphan
      exact ⟨t, List.mem_append_right _ stands, named.trans declares.1⟩
  | _ => cases declares

/-- A type of the schema has the kind of everything that declares it. -/
theorem kind_of_declares (adopts : Adopts d s) {own : TypeKind}
    (said : d.Says Definition.Declares name own) {t : SchemaType} (member : t ∈ s.types)
    (named : t.name = name) : t.kind = own := by
  have extended {e : TypeDefinition} (stands : e ∈ t.extensions) : e.body.kind = t.kind := by
    have coherent := adopts.coherent t member
    simp only [isCoherent, Bool.and_eq_true, List.all_eq_true, beq_iff_eq] at coherent
    exact coherent.1.1 e stands
  rw [adopts.types] at member
  obtain ⟨x, stated, declares⟩ := said
  rcases List.mem_append.mp member with defined | adopted
  · obtain ⟨own_definition, stands, rfl⟩ := List.mem_map.mp defined
    cases x with
    | type other =>
      have same : own_definition = other :=
        List.inj_on_of_nodup_map ((distinct_iff_nodup _).mp adopts.known) stands
          (mem_typeDefinitions.mpr stated) (named.trans declares.1.symm)
      rw [← declares.2, ← same]
      rfl
    | typeExtension e =>
      rw [← declares.2]
      refine (extended (List.mem_filter.mpr ⟨mem_typeExtensions.mpr stated, ?_⟩)).symm
      exact beq_iff_eq.mpr (declares.1.trans named.symm)
    | _ => cases declares
  · obtain ⟨e, orphan, rfl⟩ := adopted_origin adopted
    have named : e.name = name := named
    obtain ⟨_, unknown⟩ := List.mem_filter.mp orphan
    rw [named] at unknown
    cases x with
    | type other =>
      have known : name ∈ (typeDefinitions d).map (·.name) :=
        List.mem_map.mpr ⟨other, mem_typeDefinitions.mpr stated, declares.1⟩
      simp [known] at unknown
    | typeExtension other =>
      rw [← declares.2]
      refine (extended (List.mem_filter.mpr ⟨List.mem_filter.mpr ⟨?_, ?_⟩, ?_⟩)).symm
      · exact mem_typeExtensions.mpr stated
      · rwa [declares.1]
      · exact beq_iff_eq.mpr (declares.1.trans named.symm)
    | _ => cases declares

/-- A type of the schema is declared, with its kind. -/
theorem declares_of_type (adopts : Adopts d s) {t : SchemaType} (member : t ∈ s.types) :
    d.Says Definition.Declares t.name t.kind := by
  rw [adopts.types] at member
  rcases List.mem_append.mp member with defined | adopted
  · obtain ⟨own, stands, rfl⟩ := List.mem_map.mp defined
    exact ⟨_, mem_typeDefinitions.mp stands, rfl, rfl⟩
  · obtain ⟨e, orphan, rfl⟩ := adopted_origin adopted
    refine ⟨_, mem_typeExtensions.mp (List.mem_filter.mp orphan).1, rfl, ?_⟩
    exact (kind_empty e.body.kind).symm

end Adopts

end Schema
end SchemaStitch
