import SchemaStitch.Proofs.Bundle.Cache
import SchemaStitch.Proofs.Bundle.Gaps
import SchemaStitch.Proofs.Pare.Text

/-! Fields that paring leaves keep their resolvers. The entry in the branch of the type of a field is
taken with that field alone; what stands flat serves all root types, so paring a field of one root can
take it from another. -/
namespace SchemaStitch
open Sdl Merge

namespace Bundle

theorem Reached.reachedFrom {b : Bundle} (reached : b.Reached) : b.ReachedFrom fun _ => True := by
  induction reached with
  | ofSource own made ih => exact .ofSource ih (fun _ _ => trivial) made
  | ofParts own keyed made ih => exact .ofParts ih (fun _ _ => trivial) keyed made
  | setResolvers before keyed ih => exact .setResolvers ih keyed
  | withScalar before name c ih => exact .withScalar ih name c
  | clear before ih => exact .clear ih
  | schema before built ih => exact .schema ih built
  | mergeSdl merges => exact .mergeSdl merges
  | merge before beside merges left_ih right_ih => exact .merge left_ih right_ih merges
  | pare before done ih => exact .pare ih done

/-- The schema of a bundle with resolvers is read from its text. -/
theorem typed_of_stored {b b' : Bundle} {e : Executable} {map : ResolverMap} (reached : b.Reached)
    (stored : b.resolvers = some map) (built : b.schema = .ok (e, b')) :
    b.typeSchema = .ok e.schema := by
  rcases schema_cases built with ⟨cached, _⟩ | ⟨made, _⟩
  · rcases reached.reachedFrom.coherent.cache e cached with made | object
    · exact made.typed
    · rw [object.resolvers] at stored
      cases stored
  · exact typed_of_build made

/-- How a text is read as a schema. -/
structure Reads (b : Bundle) (s : Schema) (d : Document) (raw : Schema) : Prop where
  parsed : Document.parse? b.sdl = some d
  built : Schema.build? .adopt d = some raw
  valid : raw.isValid = true
  pruned : s = { raw with standard := raw.standard.filter fun t => raw.usesStandard t.name }

theorem reads_of_typed {b : Bundle} {s : Schema} (typed : b.typeSchema = .ok s) :
    ∃ d raw, Reads b s d raw := by
  rw [typeSchema] at typed
  split at typed
  · rename_i v read
    obtain rfl := Except.ok.inj typed
    obtain ⟨d, parsed, read⟩ := Option.bind_eq_some_iff.mp read
    obtain ⟨raw, built, valid⟩ := Option.bind_eq_some_iff.mp read
    rw [Schema.validate?, Option.ite_none_right_eq_some] at valid
    exact ⟨d, raw, parsed, built, valid.1, (Option.some.inj valid.2).symm⟩
  · cases typed

namespace Reads

variable {b : Bundle} {s raw : Schema} {d : Document}

theorem document (reads : Reads b s d raw) : b.document = .ok d := by
  rw [Bundle.document, if_neg, reads.parsed]
  intro empty
  have parsed := reads.parsed
  rw [String.isEmpty_iff.mp empty] at parsed
  cases parsed

theorem has_iff (reads : Reads b s d raw) (place : Name × Name) (kind : TypeKind) :
    s.Has place kind ↔ d.Says Definition.Gives place kind := by
  have same : s.Has place kind ↔ raw.Has place kind := by
    rw [reads.pruned]
    rfl
  rw [same]
  exact ⟨(Schema.adopts_of_build? reads.built).gives_of_has, Schema.Adopts.has_of_gives reads.built⟩

theorem root_query (reads : Reads b s d raw) : ∃ name, raw.root? .query = some name := by
  have valid := reads.valid
  simp only [Schema.isValid, Schema.rootsFit, Bool.and_eq_true] at valid
  exact Option.isSome_iff_exists.mp valid.1.1.1.1.1.1

end Reads

/-- A bundle, what paring makes of it by a source that says nothing of the schema, and the executable
schemas of the two. -/
structure Pares (b : Bundle) (source : Source) (pared : Bundle) (eS eP : Executable) : Prop where
  reached : b.Reached
  built : ∃ b', b.schema = .ok (eS, b')
  silent : ∃ other right, ofSource source = .ok other ∧ other.document = .ok right ∧
    ¬ right.Says Definition.OfSchema () ()
  done : b.pare source = .ok pared
  pared_built : ∃ pared', pared.schema = .ok (eP, pared')

/-- Whether paring takes the flat resolver of a field: the type of the field is a root without a
resolver for it in its branch, and a field of its name goes from another root that has no entry for
it in its branch either. -/
structure FlatTaken (b : Bundle) (eS eP : Executable) (type field : Name) : Prop where
  root : eS.schema.isRoot type = true
  untyped : b.map.resolver? type field = none
  taken : ∃ other, eS.schema.isRoot other = true ∧ eS.schema.HasObjectField other field ∧
    ¬ eP.schema.HasField other field ∧ b.map.find? [other, field] = none

section
variable {b pared : Bundle} {source : Source} {eS eP : Executable}

/-- The documents of a bundle and of what paring makes of it, and the schemas built from them. -/
structure Documents (b pared : Bundle) (eS eP : Executable) (left right : Document)
    (sS sP : Schema) : Prop where
  made : Pared b pared left right
  silent : ¬ right.Says Definition.OfSchema () ()
  before : Reads b eS.schema left sS
  after : Reads pared eP.schema (left.pare right b.map).1 sP

namespace Documents

variable {left right : Document} {sS sP : Schema}

theorem distinct (documents : Documents b pared eS eP left right sS sP) :
    ∀ x ∈ left, x.Distinct .members := Schema.Adopts.distinct_members documents.before.built

/-- What is said of the schema is left as it is. -/
theorem mem_ofSchema (documents : Documents b pared eS eP left right sS sP) {x : Definition}
    (own : x.key = .schema) : x ∈ (left.pare right b.map).1 ↔ x ∈ left.consolidated := by
  refine Pare.mem_subtractAll fun r member same => ?_
  have said : right.consolidated.Says Definition.OfSchema () () := by
    rw [own] at same
    refine ⟨r, member, ?_⟩
    cases r <;> trivial
  exact documents.silent (says_of_consolidated kept_ofSchema blind_ofSchema said)

theorem says_ofSchema_iff (documents : Documents b pared eS eP left right sS sP)
    {α β : Type} {F : Definition → α → β → Prop} {x : α} {y : β}
    (own : ∀ d, F d x y → d.key = .schema) :
    Document.Says F (left.pare right b.map).1 x y ↔ left.consolidated.Says F x y := by
  constructor
  · rintro ⟨d, member, said⟩
    exact ⟨d, (documents.mem_ofSchema (own d said)).mp member, said⟩
  · rintro ⟨d, member, said⟩
    exact ⟨d, (documents.mem_ofSchema (own d said)).mpr member, said⟩

theorem lists_iff (documents : Documents b pared eS eP left right sS sP) {kind : OperationKind}
    {name : Name} : Document.Says Definition.Lists (left.pare right b.map).1 kind name ↔
      left.Says Definition.Lists kind name := by
  rw [documents.says_ofSchema_iff fun d lists => by cases d <;> first | rfl | cases lists]
  have adopts := Schema.adopts_of_build? documents.before.built
  exact ⟨says_of_consolidated kept_lists blind_lists,
    fun lists => says_consolidated kept_lists blind_lists lists (adopts.lists_agree lists)⟩

theorem ofSchema_iff (documents : Documents b pared eS eP left right sS sP) :
    Document.Says Definition.OfSchema (left.pare right b.map).1 () () ↔
      left.Says Definition.OfSchema () () := by
  rw [documents.says_ofSchema_iff fun d own => by cases d <;> first | rfl | cases own]
  exact ⟨says_of_consolidated kept_ofSchema blind_ofSchema,
    fun said => says_consolidated kept_ofSchema blind_ofSchema said fun _ _ => rfl⟩

/-- What is said of the schema lists root operations, as otherwise what paring leaves has none. -/
theorem spoken (documents : Documents b pared eS eP left right sS sP)
    (said : left.Says Definition.OfSchema () ()) :
    ∃ kind name, left.Says Definition.Lists kind name := by
  obtain ⟨x, member, own⟩ := documents.ofSchema_iff.mpr said
  have x_key : x.key = .schema := by cases x <;> first | rfl | cases own
  have written := whole_consolidated left x ((documents.mem_ofSchema x_key).mp member)
  obtain ⟨name, root⟩ := documents.after.root_query
  refine ⟨.query, name, documents.lists_iff.mp ?_⟩
  cases x with
  | schema s =>
    have adopts := Schema.adopts_of_build? documents.after.built
    refine (adopts.lists_or_unstated root).resolve_right fun unstated => ?_
    have stands := Schema.mem_schemaDefinitions.mpr member
    simp [unstated.1] at stands
  | schemaExtension => cases written
  | _ => cases own

theorem isRoot_before (documents : Documents b pared eS eP left right sS sP) (type : Name) :
    eS.schema.isRoot type = true ↔ (∃ kind, left.Says Definition.Lists kind type) ∨
      (¬ left.Says Definition.OfSchema () () ∧
        (∃ kind : OperationKind, type = kind.defaultRoot) ∧
        ∃ t ∈ sS.types, t.name = type ∧ t.kind = .object) := by
  rw [← (Schema.adopts_of_build? documents.before.built).isRoot_iff documents.spoken,
    documents.before.pruned]
  rfl

theorem isRoot_after (documents : Documents b pared eS eP left right sS sP) (type : Name) :
    eP.schema.isRoot type = true ↔ (∃ kind, left.Says Definition.Lists kind type) ∨
      (¬ left.Says Definition.OfSchema () () ∧
        (∃ kind : OperationKind, type = kind.defaultRoot) ∧
        ∃ t ∈ sP.types, t.name = type ∧ t.kind = .object) := by
  have adopts := Schema.adopts_of_build? documents.after.built
  have same : eP.schema.isRoot type = sP.isRoot type := by
    rw [documents.after.pruned]
    rfl
  rw [same, adopts.isRoot_iff, documents.ofSchema_iff]
  · simp only [documents.lists_iff]
  · intro said
    obtain ⟨kind, name, lists⟩ := documents.spoken (documents.ofSchema_iff.mp said)
    exact ⟨kind, name, documents.lists_iff.mpr lists⟩

/-- A field that paring leaves is one of the bundle, in a type of the same kind. -/
theorem keeps (documents : Documents b pared eS eP left right sS sP) (sound : b.Sound)
    {type field : Name} {kind : TypeKind} (has : eP.schema.Has (type, field) kind) :
    eS.schema.Has (type, field) kind := by
  have gives := (documents.after.has_iff _ _).mp has
  have kept := Document.pare_keeps sound.keyed documents.distinct gives
  exact (documents.before.has_iff _ _).mpr (gives_of_consolidated kept.1)

theorem same_root (documents : Documents b pared eS eP left right sS sP) (sound : b.Sound)
    {type field : Name} {kind : TypeKind} (has : eP.schema.Has (type, field) kind) :
    eP.schema.isRoot type = eS.schema.isRoot type := by
  have object {s v raw : Schema} {d : Document} (adopts : Schema.Adopts d raw)
      (pruned : v = { raw with standard := s.standard }) (has : v.Has (type, field) kind) :
      (∃ t ∈ raw.types, t.name = type ∧ t.kind = .object) ↔ kind = .object := by
    subst v
    obtain ⟨t, member, named, own_kind, _⟩ := has
    constructor
    · rintro ⟨u, u_member, u_named, u_kind⟩
      rw [← own_kind, ← u_kind]
      exact adopts.kind_unique member u_member (named.trans u_named.symm)
    · rintro rfl
      exact ⟨t, member, named, own_kind⟩
  have before := object (s := eS.schema) (Schema.adopts_of_build? documents.before.built)
    (by rw [documents.before.pruned]) (documents.keeps sound has)
  have after := object (s := eP.schema) (Schema.adopts_of_build? documents.after.built)
    (by rw [documents.after.pruned]) has
  rw [Bool.eq_iff_iff, documents.isRoot_before, documents.isRoot_after, before, after]

/-- Paring looks for flat resolvers for the objects that are roots of the schema. -/
theorem rootNames_iff (documents : Documents b pared eS eP left right sS sP) {type field : Name}
    (has : eS.schema.Has (type, field) .object) :
    type ∈ Pare.rootNames left.consolidated ↔ eS.schema.isRoot type = true := by
  have adopts := Schema.adopts_of_build? documents.before.built
  have object : ∃ t ∈ sS.types, t.name = type ∧ t.kind = .object := by
    rw [documents.before.pruned] at has
    obtain ⟨t, member, named, own_kind, _⟩ := has
    exact ⟨t, member, named, own_kind⟩
  rw [adopts.mem_rootNames_consolidated, documents.isRoot_before]
  simp only [object, and_true]

/-- A field of a root goes, and no entry stood for it in the branch of its type: what stood flat under
its name goes too. -/
theorem flat_taken (documents : Documents b pared eS eP left right sS sP) (sound : b.Sound)
    {other field : Name} (root : eS.schema.isRoot other = true)
    (stood : eS.schema.HasObjectField other field) (goes : ¬ eP.schema.HasField other field)
    (bare : b.map.find? [other, field] = none) : pared.map.flat? field = none := by
  have has := Schema.hasObjectField_iff.mp stood
  have said := (documents.before.has_iff _ _).mp has
  have adopts := Schema.adopts_of_build? documents.before.built
  have object : left.consolidated.HasObjectField other field := by
    obtain ⟨x, member, gives⟩ := gives_consolidated said fun own declares => by
      rw [documents.before.pruned] at has
      obtain ⟨t, member, named, own_kind, _⟩ := has
      exact (adopts.kind_of_declares declares member named).symm.trans own_kind
    have whole := whole_consolidated left x member
    cases x with
    | type t =>
      obtain ⟨named, own_kind, given⟩ := gives
      cases body : t.body with
      | object is fs =>
        rw [body] at given
        exact ⟨t, is, fs, member, named, body, given⟩
      | _ => simp [body, TypeBody.kind] at own_kind
    | typeExtension => cases whole
    | _ => cases gives
  have gone : ¬ Document.HasObjectField (left.pare right b.map).1 other field := by
    rintro ⟨t, is, fs, member, named, body, given⟩
    refine goes (Schema.hasField_iff.mpr ⟨.object, (documents.after.has_iff _ _).mpr ?_⟩)
    exact ⟨.type t, member, named, by rw [body]; rfl, by rw [body]; exact given⟩
  have purged := left.pare_gone right sound.keyed object gone
  rw [documents.made.map, ResolverMap.flat?_eq_leaf?]
  cases found : (left.pare right b.map).2.leaf? [field] with
  | none => rfl
  | some l =>
    rcases purged.flat l found with plain | entry | ⟨v, rfl⟩
    · have listed := (documents.rootNames_iff has).mpr root
      simp [listed] at plain
    · exact absurd bare entry
    · rfl

theorem resolver_kept (documents : Documents b pared eS eP left right sS sP) (sound : b.Sound)
    (before : eS.Fits b.resolvers) (after : eP.Fits pared.resolvers) {type field : Name}
    (stands : eP.schema.HasField type field) :
    (FlatTaken b eS eP type field → eP.resolver? type field = none) ∧
      (¬ FlatTaken b eS eP type field → eP.resolver? type field = eS.resolver? type field) := by
  obtain ⟨kind, has⟩ := Schema.hasField_iff.mp stands
  have stood := Schema.hasField_iff.mpr ⟨kind, documents.keeps sound has⟩
  have same := documents.same_root sound has
  have gives := (documents.after.has_iff _ _).mp has
  obtain ⟨_, typed, flat⟩ := Document.pare_keeps sound.keyed documents.distinct gives
  rw [← documents.made.map] at typed flat
  rw [before.binds.at_field type field stood, after.binds.at_field type field stands]
  change (_ → Executable.choose? eP.schema pared.map type field = none) ∧
    (_ → Executable.choose? eP.schema pared.map type field =
      Executable.choose? eS.schema b.map type field)
  rw [Executable.choose?, Executable.choose?, typed, same]
  constructor
  · rintro ⟨root, untyped, other, other_root, object, goes, bare⟩
    simp [untyped, root, documents.flat_taken sound other_root object goes bare]
  · intro kept
    rcases flat with flat | ⟨other, listed, said, goes, bare⟩
    · rw [flat]
    · -- The flat resolver may be gone, but the field does not use it.
      have object := (documents.before.has_iff _ _).mpr (gives_of_consolidated said)
      cases untyped : b.map.resolver? type field with
      | some r => rfl
      | none =>
        have plain : eS.schema.isRoot type = false := by
          by_contra root
          refine kept ⟨by simpa using root, untyped, other, (documents.rootNames_iff object).mp listed,
            Schema.hasObjectField_iff.mpr object, fun still => ?_, bare⟩
          obtain ⟨kind, still⟩ := Schema.hasField_iff.mp still
          exact goes kind ((documents.after.has_iff _ _).mp still)
        simp [plain]

end Documents

instance (type field : Name) : Decidable (FlatTaken b eS eP type field) :=
  decidable_of_iff
    (eS.schema.isRoot type = true ∧ (b.map.resolver? type field).isNone = true ∧
      ∃ place ∈ eS.schema.fieldsByType, place.1.kind = .object ∧ place.2.name = field ∧
        eS.schema.isRoot place.1.name = true ∧ ¬ eP.schema.HasField place.1.name field ∧
        (b.map.find? [place.1.name, field]).isNone = true) (by
    simp only [Option.isNone_iff_eq_none]
    constructor
    · rintro ⟨root, untyped, place, member, object, named, other_root, goes, bare⟩
      exact ⟨root, untyped, place.1.name, other_root, ⟨place, member, object, rfl, named⟩, goes, bare⟩
    · rintro ⟨root, untyped, other, other_root, ⟨place, member, object, rfl, named⟩, goes, bare⟩
      exact ⟨root, untyped, place, member, object, named, other_root, goes, bare⟩)

/-- A field that paring leaves is bound to what it was bound to, or to nothing if it was bound to
nothing, unless it is one of a root that was bound to what stands flat under its name and paring takes
that with a field of another root. -/
theorem paring_keeps_resolvers (pares : Pares b source pared eS eP) {type field : Name}
    (stands : eP.schema.HasField type field) :
    (FlatTaken b eS eP type field → eP.resolver? type field = none) ∧
      (¬ FlatTaken b eS eP type field → eP.resolver? type field = eS.resolver? type field) := by
  have sound := pares.reached.sound
  obtain ⟨b', built⟩ := pares.built
  obtain ⟨pared', pared_built⟩ := pares.pared_built
  obtain ⟨other, right, begun, others, silent⟩ := pares.silent
  obtain ⟨own, left, others_right, same, documents, made⟩ := of_pare sound pares.done
  cases begun.symm.trans same
  cases others.symm.trans documents
  have before := (sound.schema built).1
  have after := ((sound.pare pares.done).schema pared_built).1
  cases stored : b.resolvers with
  | none =>
    -- Without resolvers nothing is bound before or after.
    have empty : b.map = .nil := by rw [Bundle.map, stored]; rfl
    have nothing {e : Executable} {resolvers : Option ResolverMap} (fits : e.Fits resolvers)
        (bare : ∀ path, (resolvers.getD .nil).leaf? path = none) : e.resolver? type field = none := by
      cases bound : e.resolver? type field with
      | none => rfl
      | some r =>
        have chosen := fits.binds.from_map _ _ _ bound
        simp [Executable.choose?, ResolverMap.resolver?_eq_leaf?, ResolverMap.flat?_eq_leaf?,
          bare] at chosen
    have unbound : eP.resolver? type field = none := by
      refine nothing after fun path => ?_
      change pared.map.leaf? path = none
      rw [made.map]
      cases found : (left.pare right b.map).2.leaf? path with
      | none => rfl
      | some l =>
        have stood := (left.pare_less right sound.keyed).leaves _ _ found
        simp [empty] at stood
    refine ⟨fun _ => unbound, fun _ => ?_⟩
    rw [unbound, nothing before fun path => by simp [stored]]
  | some map =>
    obtain ⟨d, sS, reads⟩ := reads_of_typed (typed_of_stored pares.reached stored built)
    obtain ⟨d', sP, pared_reads⟩ := reads_of_typed (typed_of_schema made.cache pared_built)
    cases made.document.symm.trans reads.document
    have parsed := pared_reads.parsed
    rw [made.sdl] at parsed
    obtain rfl := Document.eq_of_build?_print
      (Document.printable_pare (Document.spelled_of_parse? reads.parsed) right b.map) parsed
      pared_reads.built
    have documents : Documents b pared eS eP left right sS sP := ⟨made, silent, reads, pared_reads⟩
    exact documents.resolver_kept sound before after stands

end

/-- A paring and the schemas before and after it, found by running them. -/
theorem pares_of_run {b : Bundle} (reached : b.Reached) (source : Source)
    (p : Executable → Executable → Bool)
    (passes : (b.schema.toOption.any fun eS => (ofSource source).toOption.any fun other =>
      other.document.toOption.any fun right => (b.pare source).toOption.any fun pared =>
      pared.schema.toOption.any fun eP =>
        right.all (fun x => decide (x.key ≠ .schema)) && p eS.1 eP.1) = true) :
    ∃ pared eS eP, Pares b source pared eS eP ∧ p eS eP = true := by
  obtain ⟨⟨eS, b'⟩, built, passes⟩ := ok_of_any passes
  obtain ⟨other, begun, passes⟩ := ok_of_any passes
  obtain ⟨right, document, passes⟩ := ok_of_any passes
  obtain ⟨pared, done, passes⟩ := ok_of_any passes
  obtain ⟨⟨eP, pared'⟩, pared_built, passes⟩ := ok_of_any passes
  obtain ⟨silent, passes⟩ := Bool.and_eq_true_iff.mp passes
  refine ⟨pared, eS, eP, ⟨reached, ⟨b', built⟩, ⟨other, right, begun, document, ?_⟩, done, pared',
    pared_built⟩, passes⟩
  rintro ⟨x, member, said⟩
  have key := of_decide_eq_true (List.all_eq_true.mp silent x member)
  cases x <;> first | exact key rfl | cases said

/-- A flat entry that two roots share is taken with a field of one of them; another flat entry stays,
as does an entry in the branch of a type. -/
theorem paring_keeps_resolvers_flat_and_typed :
    ∃ (b pared : Bundle) (source : Source) (eS eP : Executable), Pares b source pared eS eP ∧
      eP.schema.HasField "Query" "a" ∧ FlatTaken b eS eP "Query" "a" ∧
      (∃ r, eS.resolver? "Query" "a" = some r) ∧ eP.resolver? "Query" "a" = none ∧
      ∃ r s, eS.resolver? "Query" "c" = some r ∧ eP.resolver? "Query" "c" = some r ∧
        eS.resolver? "Mutation" "b" = some s ∧ eP.resolver? "Mutation" "b" = some s := by
  let map : ResolverMap := .leaf "a" (.resolver (plainResolver 0))
    (.leaf "c" (.resolver (plainResolver 1))
      (.branch "Mutation" (.leaf "b" (.resolver (plainResolver 2)) .nil) .nil))
  let b := ofText "type Query { a: String c: String } type Mutation { a: String b: String }" map
  obtain ⟨pared, eS, eP, pares, passes⟩ := pares_of_run (b := b)
    (reached_ofText _ map (by decide +kernel) rfl (by simp [map, KeyTree.Keyed, KeyTree.keys]) rfl)
    (.sdl "type Mutation { a: String }")
    (fun eS eP => decide (eP.schema.HasField "Query" "a") && decide (eP.schema.HasField "Query" "c") &&
      decide (eP.schema.HasField "Mutation" "b") && decide (FlatTaken b eS eP "Query" "a") &&
      decide (¬ FlatTaken b eS eP "Query" "c") && decide (¬ FlatTaken b eS eP "Mutation" "b") &&
      (eS.resolver? "Query" "a").isSome && (eS.resolver? "Query" "c").isSome &&
      (eS.resolver? "Mutation" "b").isSome)
    (by decide +kernel)
  simp only [Bool.and_eq_true, decide_eq_true_eq, Option.isSome_iff_exists] at passes
  obtain ⟨⟨⟨⟨⟨⟨⟨⟨a_field, c_field⟩, b_field⟩, taken⟩, c_kept⟩, b_kept⟩, a_bound⟩, r, c_bound⟩, s,
    b_bound⟩ := passes
  have a_pared := (paring_keeps_resolvers pares a_field).1 taken
  have c_pared := (paring_keeps_resolvers pares c_field).2 c_kept
  have b_pared := (paring_keeps_resolvers pares b_field).2 b_kept
  exact ⟨b, pared, _, eS, eP, pares, a_field, taken, a_bound, a_pared, r, s, c_bound,
    c_pared.trans c_bound, b_bound, b_pared.trans b_bound⟩

/-- A field that paring leaves can lose its resolver. -/
theorem paring_can_unbind :
    ¬ ∀ (b pared : Bundle) (source : Source) (eS eP : Executable) (type field : Name),
      Pares b source pared eS eP → eP.schema.HasField type field →
      eP.resolver? type field = eS.resolver? type field := by
  intro claim
  obtain ⟨pared, eS, eP, pares, passes⟩ := pares_of_run
    (reached_ofText "type Query { a: String } type Mutation { a: String b: String }"
      (.leaf "a" (.resolver (plainResolver 0)) .nil) (by decide +kernel) rfl
      (by simp [KeyTree.Keyed, KeyTree.keys]) rfl)
    (.sdl "type Mutation { a: String }")
    (fun eS eP => decide (eP.schema.HasField "Query" "a") && (eS.resolver? "Query" "a").isSome &&
      (eP.resolver? "Query" "a").isNone)
    (by decide +kernel)
  simp only [Bool.and_eq_true, decide_eq_true_eq, Option.isSome_iff_exists,
    Option.isNone_iff_eq_none] at passes
  obtain ⟨⟨stands, r, bound⟩, unbound⟩ := passes
  have kept := claim _ _ _ _ _ _ _ pares stands
  rw [unbound, bound] at kept
  cases kept

end Bundle
end SchemaStitch
