import SchemaStitch.Proofs.Bundle.Scalars
import SchemaStitch.Proofs.Pare.Remainder
import SchemaStitch.Proofs.Pare.Text
import SchemaStitch.Proofs.Text.Trimming

/-! The texts of sources and bundles. A source is refused if its text is blank, and else its text is
taken without the blanks around it. No operation leaves a bundle with blanks around its text, and
only paring can leave it with no text at all, when it leaves no definition. -/
namespace SchemaStitch
open Sdl

/-! Something is printed for every document that has definitions. -/

theorem Sdl.Solid.not_blank {text : String} (solid : Solid text) : ¬ Text.Blank text := by
  obtain ⟨c, last, other⟩ := solid
  intro blank
  rw [blank c (List.mem_of_getLast? last)] at other
  cases other

theorem Sdl.Definition.Printable.not_blank {d : Definition} (printable : d.Printable)
    (first : Bool) : ¬ Text.Blank (d.print first) := by
  rcases printable.whole.lasting_or with lasting | executable
  · exact (Definition.solid_print printable.spelled lasting first).not_blank
  · obtain ⟨t, ⟨_, opener, tail, text, _, solid, _⟩, _⟩ :=
      Definition.opened_print executable printable.spelled first
    rw [text, Text.blank_append]
    exact fun blank => solid.not_blank blank.1

/-- Nothing but blanks is printed for the document without definitions alone. -/
theorem Sdl.Document.trim_print_eq_empty_iff {d : Document} (printable : ∀ x ∈ d, x.Printable) :
    Text.trim d.print = "" ↔ d = [] := by
  rw [Text.trim_eq_empty_iff]
  cases d with
  | nil => exact iff_of_true (by decide) rfl
  | cons x rest =>
    refine iff_of_false (fun blank => ?_) (List.cons_ne_nil x rest)
    rw [print, ← List.nil_append (x.print true :: _), intercalate_append_cons] at blank
    simp only [Text.blank_append] at blank
    exact (printable x List.mem_cons_self).not_blank true blank.1.1.2

namespace Source

/-- A source of which the text is not blank is taken without the blanks around it. -/
theorem normalize_eq_ite {source : Source}
    (trimmed : ∀ b, source = .bundle b → Text.Trimmed b.sdl) :
    source.normalize = if Text.Blank source.text then .error .emptySource
      else .ok (Text.trim source.text) := by
  rw [normalize_eq fun b same => Text.trim_of_trimmed (trimmed b same)]
  simp only [← Text.trim_eq_empty_iff, String.isEmpty_iff]

/-- A text that is taken is that of the source without the blanks around it. -/
theorem trims_of_normalize {source : Source} {t : String}
    (trimmed : ∀ b, source = .bundle b → Text.Trimmed b.sdl) (normal : source.normalize = .ok t) :
    Text.TrimsTo source.text t ∧ t ≠ "" := by
  rw [normalize_eq_ite trimmed] at normal
  split at normal
  · cases normal
  · rename_i full
    cases normal
    exact ⟨Text.trimsTo_trim _, full ∘ Text.trim_eq_empty_iff.mp⟩

/-- A text with no blanks around it is taken as it is. -/
theorem normalize_trimmed {t : String} (trimmed : Text.Trimmed t) (full : t ≠ "") :
    (Source.sdl t).normalize = .ok t := by
  rw [normalize, Text.trim_of_trimmed trimmed, if_neg (by simpa using full)]

end Source

namespace Bundle

variable {σ : Type}

/-- Whether paring a bundle by a source leaves no definition. -/
def LeavesNothing (b : Bundle) (other : Source) : Prop :=
  ∃ o left right, ofSource other = .ok o ∧ b.document = .ok left ∧ o.document = .ok right ∧
    ∀ map, (left.pare right map).1 = []

/-- The bundles of which paring has left no definition, and those that such a bundle becomes when it
is taken as a source or gets other resolvers or configurations. A copy of a bundle is the bundle. -/
inductive Emptied : Bundle → Prop
  | pare {b pared : Bundle} {other : Source} (before : b.Reached)
      (done : b.pare other = .ok pared) (nothing : b.LeavesNothing other) : Emptied pared
  | ofSource {b c : Bundle} (before : Emptied b) (made : ofSource (.bundle b) = .ok c) : Emptied c
  | ofParts {b c : Bundle} (before : Emptied b) {map : ResolverMap}
      (made : ofParts (.bundle b) map = .ok c) : Emptied c
  | setResolvers {b : Bundle} (before : Emptied b) (map : ResolverMap) :
      Emptied (b.setResolvers map)
  | withScalar {b : Bundle} (before : Emptied b) (name : Name) (c : ScalarConfig) :
      Emptied (b.withScalar name c)

/-- What paring leaves of a text is empty exactly if no definition is left. -/
theorem empty_pare_iff {b pared : Bundle} {other : Source} (reached : b.Reached)
    (done : b.pare other = .ok pared) : pared.sdl = "" ↔ b.LeavesNothing other := by
  obtain ⟨o, left, right, own, others, made⟩ := of_pare reached.sound done
  have printable := Document.printable_pare (spelled_of_document made.document) right b.map
  rw [made.sdl, Document.trim_print_eq_empty_iff printable]
  constructor
  · intro nothing
    refine ⟨o, left, right, own, made.document, others, fun map => ?_⟩
    rw [Document.pare_eq, ← Document.pare_eq b.map, nothing]
  · rintro ⟨o', left', right', same_own, same_left, same_right, nothing⟩
    cases own.symm.trans same_own
    cases made.document.symm.trans same_left
    cases others.symm.trans same_right
    exact nothing b.map

theorem Emptied.bare {b : Bundle} (emptied : b.Emptied) : b.sdl = "" ∧ b.cache = none := by
  induction emptied with
  | pare before done nothing =>
    obtain ⟨_, _, _, _, _, made⟩ := of_pare before.sound done
    exact ⟨(empty_pare_iff before done).mpr nothing, made.cache⟩
  | ofSource before made ih =>
    cases made
    exact ih
  | ofParts before made ih =>
    cases made
    exact ⟨ih.1, rfl⟩
  | setResolvers before map ih => exact ⟨ih.1, rfl⟩
  | withScalar before name c ih => exact ⟨ih.1, rfl⟩

theorem document_of_empty {b : Bundle} (empty : b.sdl = "") : b.document = .ok [] := by
  rw [document, empty]
  rfl

/-- No schema is built from an empty text. -/
theorem typeSchema_of_empty {b : Bundle} (empty : b.sdl = "") :
    b.typeSchema = .error .invalidSdl := by
  rw [typeSchema, empty]
  rfl

/-- Whether the text of a bundle has no blanks around it, and is empty only of bundles that paring
has emptied. -/
structure Normal (b : Bundle) : Prop where
  trimmed : Text.Trimmed b.sdl
  empty : b.sdl = "" → b.Emptied

/-- Whether the text of a bundle is not empty and has no blanks around it. -/
structure Worded (b : Bundle) : Prop where
  trimmed : Text.Trimmed b.sdl
  full : b.sdl ≠ ""

theorem Worded.normal {b : Bundle} (worded : b.Worded) : b.Normal :=
  ⟨worded.trimmed, fun empty => absurd empty worded.full⟩

theorem MadeAfresh.worded {source : Source} {b : Bundle} (fresh : MadeAfresh source b) :
    b.Worded := by
  refine ⟨?_, fresh.full⟩
  rw [fresh.text]
  exact Text.trimmed_trim source.text

/-- A merge of texts prints a document and makes its bundle from that. -/
theorem worded_of_mergeSdl {p : ConflictPolicy (StateM σ)} {left merged : Bundle} {right : Source}
    (merges : MergesSdlTo p left right merged) : merged.Worded := by
  obtain ⟨s, done⟩ := merges
  obtain ⟨_, _, _, first, _, _, _, printed, rfl⟩ := mergeSdl_steps done
  rcases ofSource_cases printed with same | fresh
  · cases same
  · exact ⟨fresh.worded.trimmed, fresh.full⟩

theorem worded_of_merge {o : MergeOptions (StateM σ)} {left right merged : Bundle} {next : Nat}
    (merges : MergesTo o left right next merged) : merged.Worded := by
  obtain ⟨s, run⟩ := merges
  obtain ⟨first, map, _, texts, _, rfl⟩ := merge_steps run
  have worded : first.Worded := worded_of_mergeSdl ⟨s, texts⟩
  exact ⟨worded.trimmed, worded.full⟩

theorem Normal.ofSource {source : Source} {b : Bundle} (own : ∀ o, source = .bundle o → o.Normal)
    (made : ofSource source = .ok b) : b.Normal := by
  rcases ofSource_cases made with same | fresh
  · exact own b same
  · exact fresh.worded.normal

theorem Normal.setResolvers {b : Bundle} (normal : b.Normal) (map : ResolverMap) :
    (b.setResolvers map).Normal :=
  ⟨normal.trimmed, fun empty => (normal.empty empty).setResolvers map⟩

theorem Normal.ofParts {source : Source} {map : ResolverMap} {b : Bundle}
    (own : ∀ o, source = .bundle o → o.Normal) (made : ofParts source map = .ok b) :
    b.Normal := by
  obtain ⟨first, begun, parts⟩ := ofParts_cases made
  rcases parts with ⟨object, s, rfl, _, _, rfl⟩ | rfl
  · rcases ofSource_cases begun with same | fresh
    · cases same
    · exact Worded.normal ⟨fresh.worded.trimmed, fresh.full⟩
  · exact (Normal.ofSource own begun).setResolvers map

/-- Building the executable schema leaves the text alone, and builds none for an empty text. -/
theorem Normal.schema {b b' : Bundle} {e : Executable} (normal : b.Normal)
    (built : b.schema = .ok (e, b')) : b'.Normal := by
  rcases schema_cases built with ⟨_, rfl⟩ | ⟨made, rfl⟩
  · exact normal
  · refine ⟨normal.trimmed, fun (empty : b.sdl = "") => ?_⟩
    have typed := typed_of_build made
    rw [typeSchema_of_empty empty] at typed
    cases typed

theorem Normal.clear {b : Bundle} (normal : b.Normal) : b.clear.Normal := by
  refine ⟨normal.trimmed, fun empty => ?_⟩
  -- A bundle that paring has emptied keeps no executable schema, so there is nothing to forget.
  have emptied := normal.empty empty
  have same : b.clear = b := by rw [Bundle.clear, ← emptied.bare.2]
  rwa [same]

theorem Normal.pare {b pared : Bundle} {other : Source} (reached : b.Reached)
    (done : b.pare other = .ok pared) : pared.Normal := by
  obtain ⟨_, _, _, _, _, made⟩ := of_pare reached.sound done
  refine ⟨?_, fun empty => .pare reached done ((empty_pare_iff reached done).mp empty)⟩
  rw [made.sdl]
  exact Text.trimmed_trim _

theorem Reached.normal {b : Bundle} (reached : b.Reached) : b.Normal := by
  induction reached with
  | ofSource own made ih => exact .ofSource ih made
  | ofParts own keyed made ih => exact .ofParts ih made
  | setResolvers before keyed ih => exact ih.setResolvers _
  | withScalar before name c ih =>
    exact ⟨ih.trimmed, fun empty => (ih.empty empty).withScalar name c⟩
  | clear before ih => exact ih.clear
  | schema before built ih => exact ih.schema built
  | mergeSdl merges => exact (worded_of_mergeSdl merges).normal
  | merge before beside merges => exact (worded_of_merge merges).normal
  | pare before done => exact .pare before done

/-! Merging two empty texts. -/

theorem mergeSdl_of_empty {b c : Bundle} (left : b.sdl = "") (right : c.sdl = "")
    (p : ConflictPolicy (StateM σ)) (s : σ) :
    ((mergeSdl p b (.bundle c)).run s).1 = .error .emptySource := by
  have sides : (do
      let other ← ofSource (.bundle c)
      return (other, ← b.document, ← other.document)) = .ok (c, [], []) := by
    simp only [ofSource, document_of_empty left, bind, Except.bind, document_of_empty right]
    rfl
  have merged : Document.merge p [] [] = pure [] := rfl
  have refused : ofSource (.document []) = .error .emptySource := rfl
  rw [mergeSdl, sides]
  simp only [merged, pure_bind, run_bind, run_pure, refused]
  rfl

theorem merge_of_empty {b c : Bundle} (left : b.sdl = "") (right : c.sdl = "")
    (o : MergeOptions (StateM σ)) (next : Nat) (s : σ) :
    (((merge o b c).run next).run s).1.1 = .error .emptySource := by
  rw [merge_run, mergeSdl_of_empty left right]

/-- A source is refused exactly if its text is blank; else its text without the blanks around it is
taken, which is then taken as it is. The text of every bundle is of this kind, and empty exactly of
the bundles that paring has emptied; merging two of these is refused. -/
theorem texts_normal :
    (∀ source : Source, (∀ b, source = .bundle b → b.Reached) →
      (source.normalize = .error .emptySource ↔ Text.Blank source.text) ∧
        (¬ Text.Blank source.text → ∃ t, source.normalize = .ok t ∧ Text.TrimsTo source.text t ∧
          (Source.sdl t).normalize = .ok t)) ∧
      (∀ b : Bundle, b.Reached → Text.Trimmed b.sdl ∧
        (b.sdl ≠ "" → (Source.sdl b.sdl).normalize = .ok b.sdl) ∧ (b.sdl = "" ↔ b.Emptied)) ∧
      ∀ b c : Bundle, b.sdl = "" → c.sdl = "" →
        (∀ (σ : Type) (p : ConflictPolicy (StateM σ)) (s : σ),
          ((mergeSdl p b (.bundle c)).run s).1 = .error .emptySource) ∧
        ∀ (σ : Type) (o : MergeOptions (StateM σ)) (next : Nat) (s : σ),
          (((merge o b c).run next).run s).1.1 = .error .emptySource := by
  refine ⟨fun source own => ?_, fun b reached => ?_, fun b c left right => ?_⟩
  · have trimmed (b : Bundle) (same : source = .bundle b) := (own b same).normal.trimmed
    have normal := Source.normalize_eq_ite trimmed
    refine ⟨?_, fun full => ?_⟩
    · rw [normal]
      split <;> simp_all
    · rw [if_neg full] at normal
      obtain ⟨trims, kept⟩ := Source.trims_of_normalize trimmed normal
      exact ⟨_, normal, trims, Source.normalize_trimmed trims.trimmed kept⟩
  · have normal := reached.normal
    exact ⟨normal.trimmed, Source.normalize_trimmed normal.trimmed,
      normal.empty, fun emptied => emptied.bare.1⟩
  · exact ⟨fun σ => mergeSdl_of_empty left right, fun σ => merge_of_empty left right⟩

def peeping : Bundle := ofSdl "type Query { peep: Int }"

/-- A bundle with a resolver and a scalar configuration in place of its own. -/
def refitted (b : Bundle) : Bundle :=
  (b.setResolvers (.leaf "peep" (.resolver (plainResolver 0)) .nil)).withScalar "Date"
    (answering "left")

theorem texts_normal_emptied :
    ∃ t pared, ¬ Text.Blank "\u2003type Query { peep: Int }\u00a0\n" ∧
      (Source.sdl "\u2003type Query { peep: Int }\u00a0\n").normalize = .ok t ∧
      Text.TrimsTo "\u2003type Query { peep: Int }\u00a0\n" t ∧ (Source.sdl t).normalize = .ok t ∧
      peeping.Reached ∧ peeping.sdl ≠ "" ∧
      (Source.sdl peeping.sdl).normalize = .ok peeping.sdl ∧
      peeping.pare (.bundle peeping) = .ok pared ∧ pared.sdl = "" ∧
      (refitted pared).Reached ∧ (refitted pared).sdl = "" ∧ (refitted pared).Emptied ∧
      (Source.bundle (refitted pared)).normalize = .error .emptySource ∧
      ((mergeSdl plainOptions.conflicts (refitted pared) (.bundle pared)).run ()).1 =
        .error .emptySource ∧
      (((merge plainOptions (refitted pared) pared).run 0).run ()).1.1 = .error .emptySource := by
  have full : ¬ Text.Blank "\u2003type Query { peep: Int }\u00a0\n" := by decide +kernel
  have reached : peeping.Reached := reached_ofSdl (by decide +kernel) (by decide +kernel)
  have peeps : peeping.sdl ≠ "" := by decide
  have paring : (peeping.pare (.bundle peeping)).toOption.any (·.sdl == "") = true := by
    decide +kernel
  obtain ⟨pared, done, passes⟩ := ok_of_any paring
  have empty : pared.sdl = "" := by simpa using passes
  have keyed : KeyTree.Keyed (.leaf "peep" (Leaf.resolver (plainResolver 0)) .nil) := by
    simp [KeyTree.Keyed, KeyTree.keys]
  have worn : (refitted pared).Reached :=
    ((Reached.pare reached done).setResolvers keyed).withScalar _ _
  have worn_empty : (refitted pared).sdl = "" := empty
  obtain ⟨sources, bundles, merging⟩ := texts_normal
  obtain ⟨t, normal, trims, again⟩ := (sources (.sdl _) (fun _ same => by cases same)).2 full
  have own (b : Bundle) (same : Source.bundle (refitted pared) = .bundle b) : b.Reached := by
    cases same
    exact worn
  have blank : Text.Blank (Source.bundle (refitted pared)).text := by
    rw [Source.text, worn_empty]
    decide
  have refused := (sources (.bundle (refitted pared)) own).1.mpr blank
  obtain ⟨texts, whole⟩ := merging _ _ worn_empty empty
  exact ⟨t, pared, full, normal, trims, again, reached, peeps, (bundles _ reached).2.1 peeps, done,
    empty, worn, worn_empty, (bundles _ worn).2.2.mp worn_empty, refused, texts _ _ _,
    whole _ _ _ _⟩

end Bundle
end SchemaStitch
