import SchemaStitch.Proofs.Bundle.Merging

/-! Resolvers that paring takes stay away. Every map of a pared bundle, of its present or of its
history, lacks the resolver of a field that was taken, and merges with bundles that do not bring one
in keep it so. -/
namespace SchemaStitch
open Sdl

/-- What a map holds for a field whose resolver was taken: nothing in the branch of its type, and
something flat only as `kept` says. -/
structure ResolverMap.Purged (type field : Name) (kept : Prop) (map : ResolverMap) : Prop where
  typed : map.leaf? [type, field] = none
  flat : map.leaf? [field] ≠ none → kept

namespace ResolverMap.Purged

variable {type field : Name} {kept : Prop}

theorem renewed {P : Resolver → Resolver → Prop} {before after : ResolverMap}
    (purged : before.Purged type field kept) (renewed : Renewed P before after) :
    after.Purged type field kept :=
  ⟨(renewed.none_iff _).mpr purged.typed,
    fun stands => purged.flat fun absent => stands ((renewed.none_iff _).mpr absent)⟩

theorem foldAll {history : List Snapshot} (sound : ∀ s ∈ history, s.Sound)
    (purged : ∀ s ∈ history, s.resolvers.Purged type field kept) :
    (Snapshot.foldAll history).Purged type field kept := by
  constructor
  · cases found : (Snapshot.foldAll history).leaf? [type, field] with
    | none => rfl
    | some l =>
      obtain ⟨s, member, stands⟩ := Snapshot.leaf?_foldAll sound found
      rw [(purged s member).typed] at stands
      contradiction
  · intro present
    obtain ⟨l, found⟩ := Option.ne_none_iff_exists'.mp present
    obtain ⟨s, member, stands⟩ := Snapshot.leaf?_foldAll sound found
    exact (purged s member).flat (by simp [stands])

/-- Where nothing stands, nothing has to be said. -/
theorem of_silent {map : ResolverMap} (typed : map.leaf? [type, field] = none)
    (flat : map.leaf? [field] = none) : map.Purged type field kept :=
  ⟨typed, fun present => absurd flat present⟩

/-- What a purged map has for the field stands flat, and the type is a root. -/
theorem of_choose? {map : ResolverMap} (purged : map.Purged type field kept) {s : Schema}
    {r : Resolver} (chosen : Executable.choose? s map type field = some r) :
    s.isRoot type = true ∧ kept := by
  rcases Executable.of_choose? chosen with typed | ⟨root, _, flat⟩
  · have stands := leaf?_of_resolver? typed
    rw [purged.typed] at stands
    contradiction
  · exact ⟨root, purged.flat (by simp [flat])⟩

end ResolverMap.Purged

namespace Bundle

/-- A bundle without a history and without anything that could be bound to a field. -/
structure Silent (type field : Name) (b : Bundle) : Prop where
  reached : b.Reached
  history : b.history = []
  typed : b.map.leaf? [type, field] = none
  flat : b.map.leaf? [field] = none

/-- The bundles that merges with silent bundles, on either side and without gaps being filled, make
of a bundle; their executable schemas may be built and kept at any time. -/
inductive Descends (type field : Name) (first : Bundle) : Bundle → Prop
  | self : Descends type field first first
  | schema {b b' : Bundle} {e : Executable} (before : Descends type field first b)
      (built : b.schema = .ok (e, b')) : Descends type field first b'
  | mergeLeft {σ : Type} {o : MergeOptions (StateM σ)} {b other merged : Bundle} {next : Nat}
      (before : Descends type field first b) (silent : other.Silent type field)
      (off : o.createMissing = false) (merges : MergesTo o b other next merged) :
      Descends type field first merged
  | mergeRight {σ : Type} {o : MergeOptions (StateM σ)} {b other merged : Bundle} {next : Nat}
      (before : Descends type field first b) (silent : other.Silent type field)
      (off : o.createMissing = false) (merges : MergesTo o other b next merged) :
      Descends type field first merged

/-- What holds of all maps of a bundle once the resolver of a field was taken. -/
structure Purged (type field : Name) (kept : Prop) (b : Bundle) : Prop where
  sound : b.Sound
  map : b.map.Purged type field kept
  history : ∀ s ∈ b.history, s.resolvers.Purged type field kept

variable {type field : Name} {kept : Prop}

theorem Silent.purged {b : Bundle} (silent : b.Silent type field) : b.Purged type field kept :=
  ⟨silent.reached.sound, .of_silent silent.typed silent.flat, by simp [silent.history]⟩

theorem Purged.merge {σ : Type} {o : MergeOptions (StateM σ)} {left right merged : Bundle}
    {next : Nat} (left_purged : left.Purged type field kept)
    (right_purged : right.Purged type field kept) (off : o.createMissing = false)
    (merges : MergesTo o left right next merged) : merged.Purged type field kept := by
  have sound := left_purged.sound.merge right_purged.sound merges
  obtain ⟨l, r, joined⟩ := of_merge left_purged.sound right_purged.sound merges
  have history : ∀ s ∈ merged.history, s.resolvers.Purged type field kept := by
    rw [joined.history]
    exact forall_joined left_purged.history right_purged.history
      (left_purged.map.renewed joined.left_stripped)
      (right_purged.map.renewed joined.right_stripped)
  have folded := ResolverMap.Purged.foldAll sound.history history
  refine ⟨sound, ⟨?_, ?_⟩, history⟩
  · exact (joined.stitched.none_iff off _).mpr folded.typed
  · intro present
    exact folded.flat fun absent => present ((joined.stitched.none_iff off _).mpr absent)

theorem Descends.purged {first b : Bundle} (descends : Descends type field first b)
    (purged : first.Purged type field kept) : b.Purged type field kept := by
  induction descends with
  | self => exact purged
  | schema before built ih =>
    obtain ⟨_, sound, resolvers, history⟩ := ih.sound.schema built
    refine ⟨sound, ?_, ?_⟩
    · rw [Bundle.map, resolvers]
      exact ih.map
    · rw [history]
      exact ih.history
  | mergeLeft before silent off merges ih => exact ih.merge silent.purged off merges
  | mergeRight before silent off merges ih => exact silent.purged.merge ih off merges

/-- Whether a map of a bundle, its own or one of its history, has something flat under the name of a
field that paring leaves there: the type is no root of the document, the map has an entry in the
branch of the type that is taken instead, or what stands flat is a raw value. -/
def KeepsFlat (b : Bundle) (document : Document) (type field : Name) : Prop :=
  ∃ map, (map = b.map ∨ ∃ s ∈ b.history, map = s.resolvers) ∧
    ∃ l, map.leaf? [field] = some l ∧
      ((Pare.rootNames document.consolidated).contains type = false ∨
        map.find? [type, field] ≠ none ∨ ∃ v, l = .value v)

instance (b : Bundle) (document : Document) (type field : Name) :
    Decidable (b.KeepsFlat document type field) :=
  decidable_of_iff
    ((b.map :: b.history.map (·.resolvers)).any fun map =>
      (map.leaf? [field]).any fun l =>
        !(Pare.rootNames document.consolidated).contains type ||
          (map.find? [type, field]).isSome || !l.isResolver) (by
    have value (l : Leaf) : l.isResolver = false ↔ ∃ v, l = .value v := by
      cases l <;> simp [Leaf.isResolver, Leaf.resolver?]
    have own (map : ResolverMap) : map ∈ b.map :: b.history.map (·.resolvers) ↔
        map = b.map ∨ ∃ s ∈ b.history, map = s.resolvers := by
      simp [eq_comm]
    simp only [List.any_eq_true, Option.any_eq_true, own, Bool.or_eq_true, Bool.not_eq_true',
      value, Option.isSome_iff_ne_none, or_assoc, KeepsFlat])

theorem Pared.purged {b pared : Bundle} {left right : Document} (sound : b.Sound)
    (pared_sound : pared.Sound) (made : Pared b pared left right)
    (stood : left.consolidated.HasObjectField type field)
    (goes : ¬ (left.pare right b.map).1.HasObjectField type field) :
    pared.Purged type field (b.KeepsFlat left type field) := by
  have purge {map : ResolverMap} (keyed : map.Keyed)
      (own : map = b.map ∨ ∃ s ∈ b.history, map = s.resolvers) :
      (left.pare right map).2.Purged type field (b.KeepsFlat left type field) := by
    rw [left.pare_document right b.map map] at goes
    have gone := left.pare_gone right keyed stood goes
    refine ⟨gone.typed, fun present => ?_⟩
    obtain ⟨l, found⟩ := Option.ne_none_iff_exists'.mp present
    exact ⟨map, own, l, (left.pare_less right keyed).leaves _ _ found, gone.flat l found⟩
  refine ⟨pared_sound, ?_, ?_⟩
  · rw [made.map]
    exact purge sound.keyed (Or.inl rfl)
  · intro s member
    rw [made.history, List.mem_map] at member
    obtain ⟨s, member, rfl⟩ := member
    exact purge (sound.history s member).keyed (Or.inr ⟨s, member, rfl⟩)

/-- Once paring has taken an object field, whatever later merges with bundles that bring in nothing
for the field make, no executable schema binds it, unless its type is a root there and paring had to
leave something flat under the field's name. -/
theorem pared_stays_unbound {b other pared last last' : Bundle} {source : Source}
    {left right : Document} (reached : b.Reached) (document : b.document = .ok left)
    (begun : ofSource source = .ok other) (others : other.document = .ok right)
    (done : b.pare source = .ok pared) (stood : left.consolidated.HasObjectField type field)
    (goes : ¬ (left.pare right b.map).1.HasObjectField type field)
    (descends : Descends type field pared last) {e : Executable}
    (built : last.schema = .ok (e, last')) :
    e.resolver? type field = none ∨
      (e.schema.isRoot type = true ∧ b.KeepsFlat left type field) := by
  obtain ⟨own, l, d, same, documents, made⟩ := of_pare reached.sound done
  cases begun.symm.trans same
  cases others.symm.trans documents
  cases document.symm.trans made.document
  have purged := descends.purged (made.purged reached.sound (reached.sound.pare done) stood goes)
  have fits := (purged.sound.schema built).1
  cases bound : e.resolver? type field with
  | none => exact Or.inl rfl
  | some r => exact Or.inr (purged.map.of_choose? (fits.binds.from_map _ _ _ bound))

/-- Whether paring takes a field, and what a merge makes of the rest passes a test. -/
def parePasses (b later : Bundle) (source : Source) (type field : Name)
    (p : Document → Executable → Bool) : Bool :=
  b.document.toOption.any fun left => (ofSource source).toOption.any fun other =>
    other.document.toOption.any fun right => (b.pare source).toOption.any fun pared =>
      (((merge plainOptions pared later).run 9).run ()).1.1.toOption.any fun last =>
        last.schema.toOption.any fun e =>
          decide (left.consolidated.HasObjectField type field) &&
            !decide ((left.pare right b.map).1.HasObjectField type field) && p left e.1

theorem pared_of_run (b later : Bundle) (source : Source) (type field : Name)
    (p : Document → Executable → Bool)
    (passes : b.parePasses later source type field p = true) :
    ∃ left other right pared last last' e, b.document = .ok left ∧ ofSource source = .ok other ∧
      other.document = .ok right ∧ b.pare source = .ok pared ∧
      left.consolidated.HasObjectField type field ∧
      ¬ (left.pare right b.map).1.HasObjectField type field ∧
      MergesTo plainOptions pared later 9 last ∧ last.schema = .ok (e, last') ∧
      p left e = true := by
  obtain ⟨left, document, passes⟩ := ok_of_any passes
  obtain ⟨other, begun, passes⟩ := ok_of_any passes
  obtain ⟨right, others, passes⟩ := ok_of_any passes
  obtain ⟨pared, done, passes⟩ := ok_of_any passes
  obtain ⟨last, merges, passes⟩ := ok_of_any passes
  obtain ⟨⟨e, last'⟩, built, passes⟩ := ok_of_any passes
  simp only [Bool.and_eq_true, Bool.not_eq_true', decide_eq_true_eq, decide_eq_false_iff_not]
    at passes
  exact ⟨left, other, right, pared, last, last', e, document, begun, others, done, passes.1.1,
    passes.1.2, ⟨(), merges⟩, built, passes.2⟩

/-- The resolver of a field that stood flat in a merge is pared and a later merge defines the field
again: it stays unbound. -/
theorem pared_stays_unbound_after_merge :
    ∃ (b other pared last last' : Bundle) (source : Source) (left right : Document) (e : Executable),
      b.Reached ∧ b.history.length = 2 ∧ b.document = .ok left ∧ ofSource source = .ok other ∧
      other.document = .ok right ∧ b.pare source = .ok pared ∧
      left.consolidated.HasObjectField "Query" "poke" ∧
      ¬ (left.pare right b.map).1.HasObjectField "Query" "poke" ∧
      Descends "Query" "poke" pared last ∧ last.schema = .ok (e, last') ∧
      e.resolver? "Query" "poke" = none := by
  have run : (((merge plainOptions
      (ofText "type Query { poke: Int peep: Int }" (.leaf "poke" (.resolver (plainResolver 0))
        (.branch "Query" (.leaf "peep" (.resolver (plainResolver 1)) .nil) .nil)))
      (ofSdl "type Person { name: String }")).run 2).run ()).1.1.toOption.any (fun b =>
        b.history.length == 2 && b.parePasses (ofSdl "type Query { poke: Int }")
          (.sdl "type Query { poke: Int }") "Query" "poke"
          fun left _ => !decide (b.KeepsFlat left "Query" "poke")) = true := by
    decide +kernel
  obtain ⟨b, merges, passes⟩ := ok_of_any run
  rw [Bool.and_eq_true, beq_iff_eq] at passes
  obtain ⟨left, other, right, pared, last, last', e, document, begun, others, done, stood, goes,
    later, built, bare⟩ := pared_of_run b (ofSdl "type Query { poke: Int }")
      (.sdl "type Query { poke: Int }") "Query" "poke"
      (fun left _ => !decide (b.KeepsFlat left "Query" "poke")) passes.2
  have reached : b.Reached := .merge
    (reached_ofText _ _ (by decide +kernel) rfl (by simp [KeyTree.Keyed, KeyTree.keys]) rfl)
    (reached_ofSdl (by decide +kernel) rfl) ⟨(), merges⟩
  have silent : (ofSdl "type Query { poke: Int }").Silent "Query" "poke" :=
    ⟨reached_ofSdl (by decide +kernel) rfl, rfl, rfl, rfl⟩
  have descends : Descends "Query" "poke" pared last :=
    .mergeLeft (o := plainOptions) .self silent rfl later
  refine ⟨b, other, pared, last, last', _, left, right, e, reached, passes.1, document, begun, others,
    done, stood, goes, descends, built, ?_⟩
  rcases pared_stays_unbound reached document begun others done stood goes descends built with
    unbound | ⟨_, kept⟩
  · exact unbound
  · simp [kept] at bare

/-- What stands flat goes with the fields of root types, so where the type of a field that paring
takes is no root, it stays, and is bound once a later merge defines the field again and makes the
type a root. -/
theorem flat_entry_reaches_later_root :
    ¬ ∀ (b other pared last last' : Bundle) (source : Source) (left right : Document)
      (e : Executable) (type field : Name), b.Reached → b.document = .ok left →
      ofSource source = .ok other → other.document = .ok right → b.pare source = .ok pared →
      left.consolidated.HasObjectField type field →
      ¬ (left.pare right b.map).1.HasObjectField type field →
      Descends type field pared last → last.schema = .ok (e, last') →
      e.resolver? type field = none := by
  intro claim
  let sdl := "type Query { b: Int } type Change { a: Int c: Int }"
  let later := "schema { query: Query mutation: Change } type Change { a: Int }"
  let map : ResolverMap := .leaf "a" (.resolver (plainResolver 0)) .nil
  obtain ⟨left, other, right, pared, last, last', e, document, begun, others, done, stood, goes,
    merges, built, bound⟩ := pared_of_run (ofText sdl map) (ofSdl later)
      (.sdl "type Change { a: Int }") "Change" "a" (fun _ e => (e.resolver? "Change" "a").isSome)
      (by decide +kernel)
  have reached := reached_ofText sdl map (by decide +kernel) rfl
    (by simp [map, KeyTree.Keyed, KeyTree.keys]) rfl
  have silent : (ofSdl later).Silent "Change" "a" :=
    ⟨reached_ofSdl (by decide +kernel) rfl, rfl, rfl, rfl⟩
  have descends : Descends "Change" "a" pared last :=
    .mergeLeft (o := plainOptions) .self silent rfl merges
  have unbound := claim _ other pared last last' _ left right e "Change" "a" reached document begun
    others done stood goes descends built
  simp [unbound] at bound

end Bundle
end SchemaStitch
