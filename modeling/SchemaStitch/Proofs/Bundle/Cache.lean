import Mathlib.Data.List.Forall2
import SchemaStitch.Proofs.Assoc
import SchemaStitch.Proofs.Bundle.Reached

/-! The executable schema that a bundle keeps. Whatever operations made the bundle, what it keeps is
what it would build from its text, resolvers and scalar configurations now. A schema object that was
handed in is the one thing that is kept without having been read from the text; that its text reads
as the same schema is asked of the object. -/
namespace SchemaStitch
open Sdl

/-- Bodies that hold the same, up to the order in which extensions added to them. -/
inductive Sdl.TypeBody.Alike : TypeBody → TypeBody → Prop
  | scalar : Alike .scalar .scalar
  | object {is js : List Name} {fs gs : List Field} (interfaces : is.Perm js)
      (fields : fs.Perm gs) : Alike (.object is fs) (.object js gs)
  | interface {is js : List Name} {fs gs : List Field} (interfaces : is.Perm js)
      (fields : fs.Perm gs) : Alike (.interface is fs) (.interface js gs)
  | union {ms ns : List Name} (members : ms.Perm ns) : Alike (.union ms) (.union ns)
  | enum {vs ws : List EnumValue} (values : vs.Perm ws) : Alike (.enum vs) (.enum ws)
  | input {fs gs : List InputField} (fields : fs.Perm gs) : Alike (.input fs) (.input gs)

/-- Types that are the same, whichever of their parts come from extensions. -/
structure SchemaType.Alike (t u : SchemaType) : Prop where
  name : t.name = u.name
  description : t.definition.description = u.definition.description
  directives : t.directives = u.directives
  body : t.body.Alike u.body

/-- Schemas that are the same, whichever of their parts come from extensions. -/
structure Schema.Alike (s u : Schema) : Prop where
  description : s.base.description = u.base.description
  applied : s.appliedDirectives = u.appliedDirectives
  roots : s.roots = u.roots
  directives : s.directives = u.directives
  standard : List.Forall₂ SchemaType.Alike s.standard u.standard
  types : List.Forall₂ SchemaType.Alike s.types u.types

theorem Sdl.TypeBody.Alike.refl (body : TypeBody) : body.Alike body := by
  cases body <;> constructor <;> exact .refl _

theorem SchemaType.Alike.refl (t : SchemaType) : t.Alike t := ⟨rfl, rfl, rfl, .refl _⟩

theorem Schema.Alike.refl (s : Schema) : s.Alike s :=
  ⟨rfl, rfl, rfl, rfl, List.forall₂_same.mpr fun t _ => .refl t,
    List.forall₂_same.mpr fun t _ => .refl t⟩

/-- Whether printing a schema object that is valid and reading the text gives the schema back. -/
def Schema.Reprints (s : Schema) : Prop :=
  ∀ v, s.validate? = some v →
    ∃ u, (Bundle.ofSdl (Text.trim s.toDocument.print)).typeSchema = .ok u ∧ v.Alike u

namespace Executable

/-- Of configurations with distinct names, those of scalars of the schema are attached. -/
theorem scalars_withScalars {scalars : ScalarConfigs} {e : Executable}
    (nodup : (Assoc.keys (e.scalars ++ scalars)).Nodup) :
    (e.withScalars scalars).scalars =
      e.scalars ++ scalars.filter fun pair => e.schema.isScalar pair.1 := by
  induction scalars generalizing e with
  | nil => simp [withScalars]
  | cons pair rest ih =>
    obtain ⟨name, config⟩ := pair
    have step : (e.setScalar name config).1.scalars =
        e.scalars ++ [(name, config)].filter fun pair => e.schema.isScalar pair.1 := by
      rw [setScalar]
      split
      · rename_i scalar
        have fresh : name ∉ e.scalars.keys := by
          simp only [Assoc.keys, List.map_append, List.map_cons, List.nodup_append] at nodup
          intro present
          exact nodup.2.2 name present name (by simp) rfl
        simp [Assoc.insert_fresh fresh, scalar]
      · rename_i other
        simp [other]
    have sub : ((e.setScalar name config).1.scalars ++ rest).Sublist
        (e.scalars ++ (name, config) :: rest) := by
      rw [step, List.append_assoc]
      exact (List.Sublist.refl _).append (List.filter_sublist.append (.refl rest))
    have rest_nodup := nodup.sublist (sub.map Prod.fst)
    have same : (e.setScalar name config).1.schema = e.schema := (e.setScalar_keeps name config).1
    calc ((e.setScalar name config).1.withScalars rest).scalars
      _ = (e.setScalar name config).1.scalars ++
            rest.filter fun pair => e.schema.isScalar pair.1 := by rw [ih rest_nodup, same]
      _ = _ := by rw [step, List.append_assoc, ← List.filter_append]; rfl

/-- What a map binds to the fields of a schema; without a map nothing is bound. -/
def boundBy (s : Schema) : Option ResolverMap → Assoc (Assoc Resolver)
  | some map => ((Executable.ofSchema s).bindMap map).bound
  | none => []

/-- Executable schemas with the same types, bindings and scalar configurations. -/
structure Same (e f : Executable) : Prop where
  schema : e.schema.Alike f.schema
  bound : e.bound = f.bound
  scalars : e.scalars = f.scalars
  executable : e.isExecutable = f.isExecutable

theorem bound_bindMap {e : Executable} {s : Schema} (schema : e.schema = s) (bare : e.bound = [])
    (map : ResolverMap) : (e.bindMap map).bound = boundBy s (some map) := by
  have places (places : List (SchemaType × Field)) {e f : Executable} (schema : e.schema = f.schema)
      (bound : e.bound = f.bound) :
      (places.foldl (bindPlace map) e).bound = (places.foldl (bindPlace map) f).bound := by
    induction places generalizing e f with
    | nil => exact bound
    | cons place rest ih =>
      refine ih (by rw [schema_bindPlace, schema_bindPlace, schema]) ?_
      rw [bindPlace, bindPlace, schema]
      split
      · simp only [Executable.bind, bound]
      · exact bound
  subst s
  rw [boundBy, bindMap_eq, bindMap_eq]
  exact places e.schema.fieldsByType (f := Executable.ofSchema e.schema) rfl bare

theorem scalars_bindMap (map : ResolverMap) (e : Executable) :
    (e.bindMap map).scalars = e.scalars := by
  rw [bindMap_eq]
  generalize e.schema.fieldsByType = places
  induction places generalizing e with
  | nil => rfl
  | cons place rest ih =>
    refine (ih (bindPlace map e place)).trans ?_
    rw [bindPlace]
    split <;> rfl

end Executable

namespace Bundle

/-- The executable schema is what the text, the resolvers and the scalar configurations of a bundle
make. -/
structure Reflects (e : Executable) (b : Bundle) : Prop where
  types : ∃ u, b.typeSchema = .ok u ∧ e.schema.Alike u ∧ e.bound = Executable.boundBy u b.resolvers ∧
    e.scalars = b.scalars.filter fun pair => u.isScalar pair.1
  executable : e.isExecutable = b.resolvers.isSome

/-- The bundles that sequences of operations make, where every schema object that is handed in is of
one class. Maps that are handed in hold no key twice. -/
inductive ReachedFrom (given : Schema → Prop) : Bundle → Prop
  | ofSource {source : Source} {b : Bundle} (own : ∀ o, source = .bundle o → ReachedFrom given o)
      (object : ∀ s, source = .schema s → given s) (made : ofSource source = .ok b) :
      ReachedFrom given b
  | ofParts {source : Source} {map : ResolverMap} {b : Bundle}
      (own : ∀ o, source = .bundle o → ReachedFrom given o)
      (object : ∀ s, source = .schema s → given s) (keyed : map.Keyed)
      (made : ofParts source map = .ok b) : ReachedFrom given b
  | setResolvers {map : ResolverMap} {b : Bundle} (before : ReachedFrom given b)
      (keyed : map.Keyed) : ReachedFrom given (b.setResolvers map)
  | withScalar {b : Bundle} (before : ReachedFrom given b) (name : Name) (c : ScalarConfig) :
      ReachedFrom given (b.withScalar name c)
  | clear {b : Bundle} (before : ReachedFrom given b) : ReachedFrom given b.clear
  | schema {b b' : Bundle} {e : Executable} (before : ReachedFrom given b)
      (built : b.schema = .ok (e, b')) : ReachedFrom given b'
  | mergeSdl {σ : Type} {p : ConflictPolicy (StateM σ)} {left merged : Bundle} {right : Source}
      (merges : MergesSdlTo p left right merged) : ReachedFrom given merged
  | merge {σ : Type} {o : MergeOptions (StateM σ)} {left right merged : Bundle} {next : Nat}
      (before : ReachedFrom given left) (beside : ReachedFrom given right)
      (merges : MergesTo o left right next merged) : ReachedFrom given merged
  | pare {b pared : Bundle} {other : Source} (before : ReachedFrom given b)
      (done : b.pare other = .ok pared) : ReachedFrom given pared

theorem ReachedFrom.reached {given : Schema → Prop} {b : Bundle} (reached : b.ReachedFrom given) :
    b.Reached := by
  induction reached with
  | ofSource own object made ih => exact .ofSource ih made
  | ofParts own object keyed made ih => exact .ofParts ih keyed made
  | setResolvers before keyed ih => exact ih.setResolvers keyed
  | withScalar before name c ih => exact ih.withScalar name c
  | clear before ih => exact ih.clear
  | schema before built ih => exact ih.schema built
  | mergeSdl merges => exact .mergeSdl merges
  | merge before beside merges left_ih right_ih => exact left_ih.merge right_ih merges
  | pare before done ih => exact ih.pare done

/-- An executable schema that was built from the text, the resolvers and the configurations that a
bundle has. -/
structure BuiltAs (b : Bundle) (e : Executable) : Prop where
  typed : b.typeSchema = .ok e.schema
  bound : e.bound = Executable.boundBy e.schema b.resolvers
  scalars : e.scalars = b.scalars.filter fun pair => e.schema.isScalar pair.1
  executable : e.isExecutable = b.resolvers.isSome

/-- An executable schema that is a schema object from which a bundle was made, which since then has
got neither resolvers nor configurations. -/
structure KeptAs (given : Schema → Prop) (b : Bundle) (e : Executable) : Prop where
  object : ∃ s v, given s ∧ s.validate? = some v ∧ b.sdl = Text.trim s.toDocument.print ∧
    e = Executable.ofSchema v
  resolvers : b.resolvers = none
  scalars : b.scalars = []

/-- What holds of the parts of every bundle. -/
structure Coherent (given : Schema → Prop) (b : Bundle) : Prop where
  full : ∀ map, b.resolvers = some map → map.isEmpty = false
  distinct : b.scalars.keys.Nodup
  cache : ∀ e, b.cache = some e → BuiltAs b e ∨ KeptAs given b e

variable {σ : Type} {given : Schema → Prop}

theorem builtAs_of_build {b : Bundle} {e : Executable} (distinct : b.scalars.keys.Nodup)
    (built : b.build = .ok e) : BuiltAs b e := by
  rw [build] at built
  cases typed : b.typeSchema with
  | error cause => simp [typed, bind, Except.bind] at built
  | ok s =>
    simp only [typed, bind, Except.bind, pure, Except.pure, Except.ok.injEq] at built
    obtain ⟨schema, bare, idle⟩ := Executable.withScalars_keeps b.scalars (Executable.ofSchema s)
    have scalars := Executable.scalars_withScalars (e := Executable.ofSchema s) distinct
    rw [Executable.withScalars] at schema bare idle scalars
    generalize List.foldl _ (Executable.ofSchema s) b.scalars = attached at *
    cases stored : b.resolvers with
    | none =>
      simp only [stored] at built
      subst attached
      refine ⟨by rw [typed, schema]; rfl, ?_, ?_, ?_⟩
      · rw [stored, bare]; rfl
      · rw [scalars, schema]; rfl
      · rw [stored, idle]; rfl
    | some map =>
      simp only [stored] at built
      subst e
      have same := Executable.schema_bindMap map attached
      refine ⟨by rw [typed, same, schema]; rfl, ?_, ?_, ?_⟩
      · rw [stored, same]
        exact Executable.bound_bindMap rfl bare map
      · rw [same, schema, Executable.scalars_bindMap, scalars]
        rfl
      · rw [stored]
        rfl

/-- A bundle whose executable schema is yet to be built. -/
theorem Coherent.of_uncached {b : Bundle}
    (full : ∀ map, b.resolvers = some map → map.isEmpty = false) (distinct : b.scalars.keys.Nodup)
    (uncached : b.cache = none) : Coherent given b :=
  ⟨full, distinct, fun e cached => by rw [uncached] at cached; contradiction⟩

theorem full_setResolvers {b : Bundle} {map : ResolverMap} (stored : ResolverMap)
    (present : (b.setResolvers map).resolvers = some stored) : stored.isEmpty = false := by
  rw [Bundle.setResolvers] at present
  split at present
  · contradiction
  · rename_i entries
    cases present
    simpa using entries

theorem Coherent.setResolvers {b : Bundle} (coherent : Coherent given b) (map : ResolverMap) :
    Coherent given (b.setResolvers map) :=
  .of_uncached full_setResolvers coherent.distinct rfl

/-- A source other than a bundle brings neither resolvers nor configurations, and what is kept of it
is a schema object. -/
theorem kept_of_ofSource {source : Source} {b : Bundle} (made : ofSource source = .ok b) :
    source = .bundle b ∨ b.resolvers = none ∧ b.scalars = [] ∧
      ∀ e, b.cache = some e → ∃ s v, source = .schema s ∧ s.validate? = some v ∧
        b.sdl = Text.trim s.toDocument.print ∧ e = Executable.ofSchema v := by
  refine (ofSource_cases made).imp_right fun fresh =>
    ⟨fresh.resolvers, fresh.scalars, fun e cached => ?_⟩
  rw [fresh.cache, Option.map_eq_some_iff] at cached
  obtain ⟨v, valid, rfl⟩ := cached
  cases source with
  | schema s => exact ⟨s, v, rfl, valid, fresh.text, rfl⟩
  | _ => cases valid

theorem Coherent.ofSource {source : Source} {b : Bundle}
    (own : ∀ o, source = .bundle o → Coherent given o) (object : ∀ s, source = .schema s → given s)
    (made : ofSource source = .ok b) : Coherent given b := by
  rcases kept_of_ofSource made with same | ⟨resolvers, scalars, kept⟩
  · exact own b same
  · refine ⟨by simp [resolvers], by simp [scalars, Assoc.keys], fun e cached => Or.inr ?_⟩
    obtain ⟨s, v, rfl, valid, text, rfl⟩ := kept e cached
    exact ⟨⟨s, v, object s rfl, valid, text, rfl⟩, resolvers, scalars⟩

theorem Coherent.ofParts {source : Source} {map : ResolverMap} {b : Bundle}
    (own : ∀ o, source = .bundle o → Coherent given o) (object : ∀ s, source = .schema s → given s)
    (made : ofParts source map = .ok b) : Coherent given b := by
  obtain ⟨first, begun, parts⟩ := ofParts_cases made
  have coherent := Coherent.ofSource own object begun
  rcases parts with ⟨_, s, rfl, entries, typed, rfl⟩ | rfl
  · have scalars : first.scalars = [] := by
      rcases kept_of_ofSource begun with same | ⟨_, scalars, _⟩
      · cases same
      · exact scalars
    refine ⟨fun stored present => ?_, coherent.distinct, fun e cached => Or.inl ?_⟩
    · cases present
      exact entries
    · cases cached
      have same := Executable.schema_bindMap map (Executable.ofSchema s)
      refine ⟨by rw [same]; exact typed, ?_, ?_, rfl⟩
      · rw [same]
        rfl
      · rw [Executable.scalars_bindMap, scalars]
        rfl
  · exact coherent.setResolvers map

theorem nodup_mergeScalars (p : ConflictPolicy (StateM σ)) (left right : ScalarConfigs)
    (merged : Document) (s : σ) : ((mergeScalars p left right merged).run s).1.keys.Nodup := by
  have go (settled : ScalarConfigs) (distinct : settled.keys.Nodup) (d : Document) (s : σ) :
      ((mergeScalars.go p left right settled d).run s).1.keys.Nodup := by
    induction d generalizing settled s with
    | nil => exact distinct
    | cons definition rest ih =>
      rw [mergeScalars.go.eq_def]
      split
      · contradiction
      · rename_i same
        cases same
        split
        · exact ih settled distinct s
        · rw [run_bind]
          split
          · exact ih _ (Assoc.nodup_insert distinct _ _) _
          · exact ih settled distinct _
      · rename_i same
        cases same
        exact ih settled distinct s
  exact go [] List.nodup_nil merged s

theorem scalars_of_mergeSdl {p : ConflictPolicy (StateM σ)} {left merged : Bundle} {right : Source}
    (merges : MergesSdlTo p left right merged) :
    merged.scalars.keys.Nodup ∧ merged.cache = none := by
  obtain ⟨s, done⟩ := merges
  obtain ⟨other, d, e, first, _, _, _, printed, rfl⟩ := mergeSdl_steps done
  refine ⟨nodup_mergeScalars p _ _ _ _, ?_⟩
  rcases kept_of_ofSource printed with same | ⟨_, _, kept⟩
  · cases same
  · by_contra cached
    obtain ⟨e, cached⟩ := Option.ne_none_iff_exists'.mp cached
    obtain ⟨s, _, same, _⟩ := kept e cached
    cases same

theorem ReachedFrom.coherent {b : Bundle} (reached : b.ReachedFrom given) : Coherent given b := by
  induction reached with
  | ofSource own object made ih => exact .ofSource ih object made
  | ofParts own object keyed made ih => exact .ofParts ih object made
  | setResolvers before keyed ih => exact ih.setResolvers _
  | withScalar before name c ih => exact .of_uncached ih.full (Assoc.nodup_insert ih.distinct _ _) rfl
  | clear before ih => exact .of_uncached ih.full ih.distinct rfl
  | @schema b b' e before built ih =>
    rcases schema_cases built with ⟨_, rfl⟩ | ⟨made, rfl⟩
    · exact ih
    · have as_built := builtAs_of_build ih.distinct made
      refine ⟨ih.full, ih.distinct, fun e cached => Or.inl ?_⟩
      cases cached
      exact ⟨as_built.typed, as_built.bound, as_built.scalars, as_built.executable⟩
  | mergeSdl merges =>
    obtain ⟨distinct, uncached⟩ := scalars_of_mergeSdl merges
    refine .of_uncached ?_ distinct uncached
    simp [(of_mergeSdl merges).resolvers]
  | merge before beside merges left_ih right_ih =>
    obtain ⟨s, run⟩ := merges
    obtain ⟨first, map, _, texts, _, rfl⟩ := merge_steps run
    exact .of_uncached full_setResolvers (scalars_of_mergeSdl ⟨s, texts⟩).1 rfl
  | @pare b pared other before done ih =>
    rw [Bundle.pare] at done
    cases begun : Bundle.ofSource other with
    | error cause => simp [begun, bind, Except.bind] at done
    | ok o =>
      cases own : b.document with
      | error cause => simp [begun, own, bind, Except.bind] at done
      | ok left =>
        cases others : o.document with
        | error cause => simp [begun, own, others, bind, Except.bind] at done
        | ok right =>
          simp only [begun, own, others, bind, Except.bind, pure, Except.pure,
            Except.ok.injEq] at done
          subst pared
          exact .of_uncached (full_setResolvers (b := b)) (Assoc.nodup_filter ih.distinct _) rfl

theorem Coherent.reflects {b : Bundle} {e : Executable} (coherent : Coherent Schema.Reprints b)
    (cached : b.cache = some e) : Reflects e b := by
  rcases coherent.cache e cached with built | kept
  · exact ⟨⟨e.schema, built.typed, .refl _, built.bound, built.scalars⟩, built.executable⟩
  · obtain ⟨s, v, reprints, valid, text, rfl⟩ := kept.object
    obtain ⟨u, read, alike⟩ := reprints v valid
    rw [← text] at read
    refine ⟨⟨u, read, alike, ?_, ?_⟩, ?_⟩
    · rw [kept.resolvers]
      rfl
    · rw [kept.scalars]
      rfl
    · rw [kept.resolvers]
      rfl

theorem build_of_typed {b : Bundle} {s : Schema} (typed : b.typeSchema = .ok s) :
    ∃ e, b.build = .ok e := by
  rw [build, typed]
  exact ⟨_, rfl⟩

/-- In every bundle that operations make, stored resolvers are some, and a kept executable schema is
what text, resolvers and scalar configurations make; so keeping it or building it anew answers the
same. -/
theorem kept_schema_reflects {b : Bundle} (reached : b.ReachedFrom Schema.Reprints) :
    (∀ map, b.resolvers = some map → map.isEmpty = false) ∧
    (∀ e, b.cache = some e → Reflects e b) ∧
    (∀ cause, b.schema = .error cause → b.clear.schema = .error cause) ∧
    ∀ e b', b.schema = .ok (e, b') → ∃ f b'', b.clear.schema = .ok (f, b'') ∧ e.Same f := by
  have coherent := reached.coherent
  have anew : b.clear.schema = do
      let e ← b.build
      return (e, { b with cache := some e }) := rfl
  refine ⟨coherent.full, fun e cached => coherent.reflects cached, ?_⟩
  rw [anew, Bundle.schema]
  cases usable : b.usable? with
  | none =>
    refine ⟨fun cause failed => failed, fun e b' built => ⟨e, b', built, ?_⟩⟩
    exact ⟨.refl _, rfl, rfl, rfl⟩
  | some kept =>
    refine ⟨fun cause failed => (by cases failed), ?_⟩
    rintro e b' ⟨⟩
    have cached := (Option.filter_eq_some_iff.mp usable).1
    obtain ⟨⟨u, typed, alike, bound, scalars⟩, executable⟩ := coherent.reflects cached
    obtain ⟨f, built⟩ := build_of_typed typed
    have as_built := builtAs_of_build coherent.distinct built
    obtain rfl : u = f.schema := Except.ok.inj (typed.symm.trans as_built.typed)
    refine ⟨f, { b with cache := some f }, by rw [built]; rfl, alike, ?_, ?_, ?_⟩
    · rw [bound, as_built.bound]
    · rw [scalars, as_built.scalars]
    · rw [executable, as_built.executable]

theorem kept_schema_reflects_object :
    ∃ (s : Schema) (b : Bundle) (e : Executable), ofSource (.schema s) = .ok b ∧
      b.ReachedFrom Schema.Reprints ∧ b.cache = some e ∧ Reflects e b ∧
      ∃ f b', b.clear.schema = .ok (f, b') ∧ e.Same f := by
  let text := "scalar Date\n\ntype Query \x7b\n  now: Date\n\x7d"
  have read : ((Document.parse? text).bind (Schema.build? .adopt)).any (fun s =>
      s.validate?.isSome && Text.trim s.toDocument.print == text) = true := by decide +kernel
  rw [Option.any_eq_true] at read
  obtain ⟨s, read, passes⟩ := read
  simp only [Bool.and_eq_true, beq_iff_eq, Option.isSome_iff_exists] at passes
  obtain ⟨⟨v, valid⟩, printed⟩ := passes
  have typed : (ofSdl text).typeSchema = .ok v := by
    obtain ⟨d, parsed, built⟩ := Option.bind_eq_some_iff.mp read
    simp only [typeSchema, ofSdl, parsed, Option.bind_some, built, valid]
  have reprints : s.Reprints := by
    intro w also
    obtain rfl := Option.some.inj (valid.symm.trans also)
    exact ⟨v, by rw [printed, typed], .refl v⟩
  let b : Bundle := ⟨text, none, [], [], some (Executable.ofSchema v)⟩
  have made : ofSource (.schema s) = .ok b := by
    have full : text.isEmpty = false := by decide +kernel
    simp [ofSource, Source.normalize, printed, full, Source.schema?, valid, bind, Except.bind, pure,
      Except.pure, b]
  have reached : b.ReachedFrom Schema.Reprints := by
    refine .ofSource (fun _ same => by cases same) (fun object same => ?_) made
    cases same
    exact reprints
  obtain ⟨_, reflects, _, agrees⟩ := kept_schema_reflects reached
  obtain ⟨f, b', anew, same⟩ := agrees (Executable.ofSchema v) b rfl
  exact ⟨s, b, Executable.ofSchema v, made, reached, rfl, reflects _ rfl, f, b', anew, same⟩

end Bundle
end SchemaStitch
