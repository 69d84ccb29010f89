import SchemaStitch.Proofs.Merge.Once
import SchemaStitch.Proofs.ResolverMap.Filling

/-! The fields of the schema that is built from a document: those that the definitions and extensions
of the document give to its types, and which of its types are roots. -/
namespace SchemaStitch
open Sdl

namespace Sdl

/-- Whether a definition gives a field to a type of a kind. The place is a type and a field. -/
def Definition.Gives : Definition → Name × Name → TypeKind → Prop
  | .type t, place, kind | .typeExtension t, place, kind =>
    t.name = place.1 ∧ t.body.kind = kind ∧ place.2 ∈ t.body.fields.map (·.name)
  | _, _, _ => False

theorem Definition.Gives.declares {d : Definition} {place : Name × Name} {kind : TypeKind}
    (gives : d.Gives place kind) : d.Declares place.1 kind := by
  cases d with
  | type t => exact ⟨gives.1, gives.2.1⟩
  | typeExtension t => exact ⟨gives.1, gives.2.1⟩
  | _ => cases gives

theorem Document.Says.declares {d : Document} {place : Name × Name} {kind : TypeKind}
    (said : d.Says Definition.Gives place kind) : d.Says Definition.Declares place.1 kind := by
  obtain ⟨x, member, gives⟩ := said
  exact ⟨x, member, gives.declares⟩

namespace TypeBody

theorem kind_append (a b : TypeBody) : (a.append b).kind = a.kind := by
  cases a <;> cases b <;> rfl

theorem fields_append {a b : TypeBody} (same : b.kind = a.kind) :
    (a.append b).fields = a.fields ++ b.fields := by
  cases a <;> cases b <;> cases same <;> rfl

theorem memberNames_append {a b : TypeBody} (same : b.kind = a.kind) :
    (a.append b).memberNames = a.memberNames ++ b.memberNames := by
  cases a <;> cases b <;> cases same <;> simp [append, memberNames]

theorem kind_of_field {body : TypeBody} {f : Field} (member : f ∈ body.fields) :
    body.kind ≠ .scalar := by
  cases body <;> simp_all [TypeBody.fields, TypeBody.kind]

end TypeBody
end Sdl

namespace SchemaType

/-- What extensions of the kind of a type add to a list in it comes after what the definition has
there. -/
theorem part_body {α : Type} (part : TypeBody → List α)
    (append : ∀ a b : TypeBody, b.kind = a.kind → part (a.append b) = part a ++ part b)
    {t : SchemaType} (same : ∀ e ∈ t.extensions, e.body.kind = t.kind) :
    part t.body = part t.definition.body ++ t.extensions.flatMap fun e => part e.body := by
  have folded (extensions : List TypeDefinition) (body : TypeBody)
      (same : ∀ e ∈ extensions, e.body.kind = body.kind) :
      part (extensions.foldl (fun body e => body.append e.body) body) =
        part body ++ extensions.flatMap fun e => part e.body := by
    induction extensions generalizing body with
    | nil => simp
    | cons e rest ih =>
      have own := same e List.mem_cons_self
      have rest_same : ∀ e' ∈ rest, e'.body.kind = (body.append e.body).kind := fun e' member =>
        (same e' (List.mem_cons_of_mem _ member)).trans (body.kind_append e.body).symm
      rw [List.foldl_cons, ih _ rest_same, append _ _ own, List.flatMap_cons, List.append_assoc]
  exact folded t.extensions t.definition.body same

end SchemaType

namespace Schema

/-- Whether a type of a kind of a schema has a field. -/
def Has (s : Schema) (place : Name × Name) (kind : TypeKind) : Prop :=
  ∃ t ∈ s.types, t.name = place.1 ∧ t.kind = kind ∧ place.2 ∈ t.body.fields.map (·.name)

theorem hasField_iff {s : Schema} {type field : Name} :
    s.HasField type field ↔ ∃ kind, s.Has (type, field) kind := by
  constructor
  · rintro ⟨⟨t, f⟩, member, rfl, rfl⟩
    obtain ⟨t', t_member, pair⟩ := List.mem_flatMap.mp member
    obtain ⟨f', f_member, same⟩ := List.mem_map.mp pair
    cases same
    exact ⟨_, t, t_member, rfl, rfl, List.mem_map_of_mem f_member⟩
  · rintro ⟨kind, t, member, rfl, _, named⟩
    obtain ⟨f, f_member, rfl⟩ := List.mem_map.mp named
    exact ⟨(t, f), List.mem_flatMap.mpr ⟨t, member, List.mem_map_of_mem f_member⟩, rfl, rfl⟩

theorem hasObjectField_iff {s : Schema} {type field : Name} :
    s.HasObjectField type field ↔ s.Has (type, field) .object := by
  constructor
  · rintro ⟨⟨t, f⟩, member, object, rfl, rfl⟩
    obtain ⟨t', t_member, pair⟩ := List.mem_flatMap.mp member
    obtain ⟨f', f_member, same⟩ := List.mem_map.mp pair
    cases same
    exact ⟨t, t_member, rfl, object, List.mem_map_of_mem f_member⟩
  · rintro ⟨t, member, rfl, object, named⟩
    obtain ⟨f, f_member, rfl⟩ := List.mem_map.mp named
    exact ⟨(t, f), List.mem_flatMap.mpr ⟨t, member, List.mem_map_of_mem f_member⟩, object, rfl, rfl⟩

/-- What a schema is built from holds no operation and no fragment. -/
theorem hasExecutable_of_build? {policy : OrphanPolicy} {d : Document} {s : Schema}
    (built : build? policy d = some s) : hasExecutable d = false :=
  (built_of_build? built).unmixed

/-- No name of a built-in type is defined, and extensions of built-in scalars are of scalars. -/
theorem standard_of_build? {d : Document} {s : Schema} (built : build? .adopt d = some s) :
    (∀ t ∈ typeDefinitions d, t.name ∉ standardScalars) ∧
      ∀ e ∈ typeExtensions d, e.name ∈ standardScalars → e.body.kind = .scalar := by
  have made := built_of_build? built
  refine ⟨made.custom, fun e member reserved => ?_⟩
  have extended : withExtensions (typeExtensions d) ⟨none, e.name, [], .scalar⟩ ∈ s.standard := by
    rw [made.standard]
    exact List.mem_map_of_mem (List.mem_map_of_mem reserved)
  have fits := made.coherent _ (List.mem_append_left _ extended)
  simp only [isCoherent, Bool.and_eq_true, List.all_eq_true, beq_iff_eq] at fits
  exact fits.1.1 e (List.mem_filter.mpr ⟨member, beq_self_eq_true _⟩)

namespace Adopts

variable {d : Document} {s : Schema} {kind : TypeKind} {type field : Name}

theorem kinds_fit (adopts : Adopts d s) {t : SchemaType} (member : t ∈ s.types) :
    ∀ e ∈ t.extensions, e.body.kind = t.kind := by
  have coherent := adopts.coherent t member
  simp only [isCoherent, Bool.and_eq_true, List.all_eq_true, beq_iff_eq] at coherent
  exact coherent.1.1

theorem fields_body (adopts : Adopts d s) {t : SchemaType} (member : t ∈ s.types) :
    t.body.fields = t.definition.body.fields ++ t.extensions.flatMap (·.body.fields) :=
  SchemaType.part_body TypeBody.fields (fun _ _ => TypeBody.fields_append) (adopts.kinds_fit member)

/-- Types of one name are of one kind. -/
theorem kind_unique (adopts : Adopts d s) {t u : SchemaType} (t_member : t ∈ s.types)
    (u_member : u ∈ s.types) (same : t.name = u.name) : t.kind = u.kind :=
  adopts.kind_of_declares (adopts.declares_of_type u_member) t_member same

/-- A root that is not listed goes without saying, where no schema definition is written and nothing
is listed. -/
theorem lists_or_unstated (adopts : Adopts d s) {operation : OperationKind} {name : Name}
    (root : s.root? operation = some name) :
    d.Says Definition.Lists operation name ∨
      (schemaDefinitions d = [] ∧ ∀ other own, ¬ d.Says Definition.Lists other own) := by
  rcases List.mem_append.mp (mem_of_lookup root) with based | added
  · rcases adopts.base with only | ⟨without, implied⟩
    · have own : s.base ∈ schemaDefinitions d := by simp [only]
      exact Or.inl ⟨_, mem_schemaDefinitions.mp own, based⟩
    · refine Or.inr ⟨without, ?_⟩
      rintro other own ⟨x, member, lists⟩
      cases x with
      | schema written =>
        have written := mem_schemaDefinitions.mpr member
        simp [without] at written
      | schemaExtension extension =>
        -- An extension lists an operation, so none is implied.
        have stated : (schemaExtensions d).any (fun e => !e.operations.isEmpty) = true :=
          List.any_eq_true.mpr ⟨extension, mem_schemaExtensions.mpr member,
            by simp [List.ne_nil_of_mem lists]⟩
        simp [implied, stated] at based
      | _ => cases lists
  · obtain ⟨extension, member, lists⟩ := List.mem_flatMap.mp added
    rw [adopts.extensions] at member
    exact Or.inl ⟨_, mem_schemaExtensions.mp member, lists⟩

/-- A field of the schema is given by the document. -/
theorem gives_of_has (adopts : Adopts d s) (has : s.Has (type, field) kind) :
    d.Says Definition.Gives (type, field) kind := by
  obtain ⟨t, member, rfl, rfl, named⟩ := has
  obtain ⟨f, f_member, rfl⟩ := List.mem_map.mp named
  have kinds := adopts.kinds_fit member
  rw [adopts.fields_body member, List.mem_append, List.mem_flatMap] at f_member
  have extended {e : TypeDefinition} (stands : e ∈ t.extensions)
      (said : .typeExtension e ∈ d) (named : e.name = t.name) (f_member : f ∈ e.body.fields) :
      d.Says Definition.Gives (t.name, f.name) t.kind :=
    ⟨.typeExtension e, said, named, kinds e stands, List.mem_map_of_mem f_member⟩
  rw [adopts.types] at member
  rcases List.mem_append.mp member with defined | adopted
  · obtain ⟨own, stands, rfl⟩ := List.mem_map.mp defined
    rcases f_member with f_member | ⟨e, e_member, f_member⟩
    · exact ⟨.type own, mem_typeDefinitions.mp stands, rfl, rfl, List.mem_map_of_mem f_member⟩
    · obtain ⟨said, named⟩ := List.mem_filter.mp e_member
      exact extended e_member (mem_typeExtensions.mp said) (beq_iff_eq.mp named) f_member
  · obtain ⟨first, orphan, rfl⟩ := adopted_origin adopted
    rcases f_member with f_member | ⟨e, e_member, f_member⟩
    · have empty : (TypeBody.empty first.body.kind).fields = [] := by
        cases first.body.kind <;> rfl
      change f ∈ (TypeBody.empty first.body.kind).fields at f_member
      simp [empty] at f_member
    · obtain ⟨said, named⟩ := List.mem_filter.mp e_member
      exact extended e_member (mem_typeExtensions.mp (List.mem_filter.mp said).1)
        (beq_iff_eq.mp named) f_member

/-- The definition with the name of a type is the one in it. -/
theorem definition_of_type (adopts : Adopts d s) {t : SchemaType} (member : t ∈ s.types)
    {own : TypeDefinition} (said : .type own ∈ d) (named : own.name = t.name) :
    t.definition = own := by
  have stands := mem_typeDefinitions.mpr said
  rw [adopts.types] at member
  rcases List.mem_append.mp member with defined | adopted
  · obtain ⟨other, other_stands, rfl⟩ := List.mem_map.mp defined
    exact List.inj_on_of_nodup_map ((distinct_iff_nodup _).mp adopts.known) other_stands stands
      named.symm
  · obtain ⟨first, orphan, rfl⟩ := adopted_origin adopted
    have named : own.name = first.name := named
    have known : first.name ∈ (typeDefinitions d).map (·.name) := by
      rw [← named]
      exact List.mem_map_of_mem stands
    have unknown := (List.mem_filter.mp orphan).2
    simp [known] at unknown

/-- An extension with the name of a type is one of those in it. -/
theorem extension_of_type (adopts : Adopts d s) {t : SchemaType} (member : t ∈ s.types)
    {e : TypeDefinition} (said : .typeExtension e ∈ d) (named : e.name = t.name) :
    e ∈ t.extensions := by
  have stands := mem_typeExtensions.mpr said
  rw [adopts.types] at member
  rcases List.mem_append.mp member with defined | adopted
  · obtain ⟨own, _, rfl⟩ := List.mem_map.mp defined
    exact List.mem_filter.mpr ⟨stands, beq_iff_eq.mpr named⟩
  · obtain ⟨first, orphan, rfl⟩ := adopted_origin adopted
    have named : e.name = first.name := named
    have unknown := (List.mem_filter.mp orphan).2
    rw [← named] at unknown
    exact List.mem_filter.mpr ⟨List.mem_filter.mpr ⟨stands, unknown⟩, beq_iff_eq.mpr named⟩

/-- No built-in type has fields. -/
theorem custom_of_gives (built : build? .adopt d = some s)
    (said : d.Says Definition.Gives (type, field) kind) : type ∉ standardScalars := by
  obtain ⟨free, scalar⟩ := standard_of_build? built
  obtain ⟨x, member, gives⟩ := said
  intro reserved
  cases x with
  | type t =>
    obtain ⟨rfl, _⟩ := gives
    exact free t (mem_typeDefinitions.mpr member) reserved
  | typeExtension e =>
    obtain ⟨rfl, _, named⟩ := gives
    obtain ⟨f, f_member, _⟩ := List.mem_map.mp named
    exact TypeBody.kind_of_field f_member (scalar e (mem_typeExtensions.mpr member) reserved)
  | _ => cases gives

/-- A field that the document gives is one of the schema. -/
theorem has_of_gives (built : build? .adopt d = some s)
    (said : d.Says Definition.Gives (type, field) kind) : s.Has (type, field) kind := by
  have adopts := adopts_of_build? built
  obtain ⟨t, t_member, named⟩ := adopts.type_of_declares said.declares (custom_of_gives built said)
  refine ⟨t, t_member, named, adopts.kind_of_declares said.declares t_member named, ?_⟩
  rw [adopts.fields_body t_member, List.map_append, List.mem_append]
  -- The definition or extension that gives the field is one of the parts of the type.
  obtain ⟨x, member, gives⟩ := said
  cases x with
  | type own =>
    obtain ⟨own_name, _, given⟩ := gives
    rw [adopts.definition_of_type t_member member (own_name.trans named.symm)]
    exact Or.inl given
  | typeExtension e =>
    obtain ⟨own_name, _, given⟩ := gives
    obtain ⟨f, f_member, same⟩ := List.mem_map.mp given
    have stands := adopts.extension_of_type t_member member (own_name.trans named.symm)
    exact Or.inr (List.mem_map.mpr ⟨f, List.mem_flatMap.mpr ⟨e, stands, f_member⟩, same⟩)
  | _ => cases gives

/-- The types of a schema are made of the definitions and extensions of the document, so these have
members of distinct names. -/
theorem distinct_members (built : build? .adopt d = some s) : ∀ x ∈ d, x.Distinct .members := by
  have adopts := adopts_of_build? built
  have members {t : SchemaType} (member : t ∈ s.types) :
      (t.definition.body.memberNames ++
        t.extensions.flatMap fun e => e.body.memberNames).Nodup := by
    have coherent := adopts.coherent t member
    simp only [isCoherent, Bool.and_eq_true] at coherent
    rw [← SchemaType.part_body TypeBody.memberNames
      (fun _ _ => TypeBody.memberNames_append) (adopts.kinds_fit member)]
    exact (distinct_iff_nodup _).mp coherent.2
  intro x member
  cases x with
  | type t =>
    have stands : withExtensions (typeExtensions d) t ∈ s.types := by
      rw [adopts.types]
      exact List.mem_append_left _ (List.mem_map_of_mem (mem_typeDefinitions.mpr member))
    exact (List.nodup_append.mp (members stands)).1
  | typeExtension e =>
    by_cases reserved : e.name ∈ standardScalars
    · have scalar := (standard_of_build? built).2 e (mem_typeExtensions.mpr member) reserved
      change e.body.memberNames.Nodup
      cases body : e.body with
      | scalar => exact List.nodup_nil
      | _ => simp [body, TypeBody.kind] at scalar
    · obtain ⟨t, t_member, named⟩ := adopts.type_of_declares ⟨_, member, rfl, rfl⟩ reserved
      have stands := adopts.extension_of_type t_member member named.symm
      exact (List.nodup_flatMap.mp (List.nodup_append.mp (members t_member)).2.1).1 e stands
  | _ => exact List.nodup_nil

end Adopts
end Schema
end SchemaStitch
