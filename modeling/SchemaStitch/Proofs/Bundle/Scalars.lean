import SchemaStitch.Proofs.Bundle.Frame

/-! The configurations of scalars through merging and paring. What is carried over is chosen by the
document that is printed, and what is attached by the schema that is built from its text; the two
agree on all scalars but the built-in ones, which no document defines. -/
namespace SchemaStitch
open Sdl

namespace Schema

/-- A scalar that is not built in is declared in the document, whichever built-in ones are kept. -/
theorem Adopts.declares_of_isScalar {d : Document} {s : Schema} (adopts : Adopts d s)
    {kept : SchemaType → Bool} {n : Name} (custom : n ∉ standardScalars)
    (scalar : isScalar { s with standard := s.standard.filter kept } n = true) :
    d.Says Definition.Declares n .scalar := by
  rw [isScalar] at scalar
  split at scalar
  · rename_i t found
    have named : t.name = n := by simpa using List.find?_some found
    have kind : t.kind = .scalar := beq_iff_eq.mp scalar
    rcases List.mem_append.mp (List.mem_of_find?_eq_some found) with own | standard
    · have declared := adopts.declares_of_type own
      rwa [named, kind] at declared
    · have standard := (List.mem_filter.mp standard).1
      rw [adopts.standard] at standard
      obtain ⟨definition, stands, rfl⟩ := List.mem_map.mp standard
      obtain ⟨name, known, rfl⟩ := List.mem_map.mp stands
      exact absurd (named ▸ known) custom
  · cases scalar

end Schema

theorem definesScalar_of_says {d : Document} (whole : ∀ x ∈ d, x.Whole) {n : Name}
    (said : d.Says Definition.Declares n .scalar) : d.definesScalar n = true := by
  obtain ⟨x, member, declares⟩ := said
  refine List.any_eq_true.mpr ⟨x, member, ?_⟩
  cases x with
  | type t =>
    obtain ⟨description, name, directives, body⟩ := t
    obtain ⟨rfl, scalar⟩ := declares
    cases body <;> first | exact beq_self_eq_true _ | cases scalar
  | typeExtension t => exact (whole _ member).elim
  | _ => cases declares

section
variable {σ : Type}

/-- The configuration of each scalar that a merge defines is that of the right side, else that of
the left one. -/
theorem get?_mergeScalars (left right : ScalarConfigs) (d : Document) (s : σ) (n : Name) :
    Assoc.get? ((mergeScalars (.keepRight : ConflictPolicy (StateM σ)) left right d).run s).1 n =
      if d.definesScalar n then (Assoc.get? right n).or (Assoc.get? left n) else none := by
  have go (settled : ScalarConfigs) (s : σ) :
      Assoc.get? ((mergeScalars.go (.keepRight : ConflictPolicy (StateM σ)) left right settled
        d).run s).1 n =
        if d.definesScalar n then ((Assoc.get? right n).or (Assoc.get? left n)).or
          (Assoc.get? settled n) else Assoc.get? settled n := by
    induction d generalizing settled s with
    | nil => rfl
    | cons x rest ih =>
      rw [mergeScalars.go.eq_def]
      split
      · contradiction
      · rename_i name _ rest same
        cases same
        have defines (description : Option String) (ds : List Directive) :
            Document.definesScalar (.type ⟨description, name, ds, .scalar⟩ :: rest) n =
              (name == n || Document.definesScalar rest n) := rfl
        have asked : (ConflictPolicy.keepRight : ConflictPolicy (StateM σ)).scalar name
            (Assoc.get? left name) (Assoc.get? right name) =
              pure ((Assoc.get? right name).or (Assoc.get? left name)) := by
          cases Assoc.get? right name <;> rfl
        rw [defines]
        by_cases same : name = n
        · subst name
          split
          · rename_i left_bare right_bare
            simp [ih, left_bare, right_bare]
          · rw [asked, pure_bind]
            split <;> rename_i chosen <;> simp [ih, chosen]
        · split
          · simp [ih, same]
          · rw [asked, pure_bind]
            split <;> simp [ih, same]
      · rename_i x rest unscalar same
        cases same
        have silent : Document.definesScalar (x :: rest) n = Document.definesScalar rest n := by
          rw [Document.definesScalar, List.any_cons]
          split
          · exact absurd rfl (unscalar _ _ _)
          · rfl
        rw [ih, silent]
  rw [mergeScalars, go]
  simp [Assoc.get?]

namespace Bundle

theorem spelled_of_document {b : Bundle} {d : Document} (read : b.document = .ok d) :
    ∀ x ∈ d, x.Spelled := by
  rw [document] at read
  split at read
  · cases read
    simp
  · split at read
    · rename_i parsed
      cases read
      exact Document.spelled_of_parse? parsed
    · cases read

/-- Each scalar that is not built in of a schema that is built from the text of a document is defined
by the document, and what is attached to it is what the bundle configures for it. -/
theorem scalars_of_schema {b b' : Bundle} {d : Document} {e : Executable}
    (printable : ∀ x ∈ d, x.Printable) (text : b.sdl = Text.trim d.print)
    (uncached : b.cache = none) (distinct : b.scalars.keys.Nodup) (built : b.schema = .ok (e, b'))
    {n : Name} (custom : n ∉ Schema.standardScalars) (scalar : e.schema.isScalar n = true) :
    d.definesScalar n = true ∧ Assoc.get? e.scalars n = Assoc.get? b.scalars n := by
  obtain ⟨d', raw, reads⟩ := reads_of_typed (typed_of_schema uncached built)
  have parsed := reads.parsed
  rw [text] at parsed
  obtain rfl := Document.eq_of_build?_print printable parsed reads.built
  constructor
  · have declared := scalar
    rw [reads.pruned] at declared
    exact definesScalar_of_says (fun x member => (printable x member).whole)
      ((Schema.adopts_of_build? reads.built).declares_of_isScalar custom declared)
  · rw [(builtAs_of_build distinct (build_of_schema uncached built)).scalars,
      Assoc.get?_filter b.scalars e.schema.isScalar n, if_pos scalar]

/-- Whether a bundle is what merging two others answers where later sides win, be it of their texts
alone or with their resolvers. -/
inductive MergesByDefault (left right merged : Bundle) : Prop
  | texts {σ : Type} (merges : MergesSdlTo (.keepRight : ConflictPolicy (StateM σ)) left
      (.bundle right) merged) : MergesByDefault left right merged
  | bundles {σ : Type} {o : MergeOptions (StateM σ)} {next : Nat} (keeps : o.conflicts = .keepRight)
      (merges : MergesTo o left right next merged) : MergesByDefault left right merged

/-- What a merge by default makes of two texts and their scalar configurations. -/
structure Texts (left right merged : Bundle) (l r : Document) : Prop where
  left_read : left.document = .ok l
  right_read : right.document = .ok r
  text : merged.sdl = Text.trim (Merge.merged l r).print
  cache : merged.cache = none
  distinct : merged.scalars.keys.Nodup
  scalars : ∀ n, Assoc.get? merged.scalars n = if (Merge.merged l r).definesScalar n then
    (Assoc.get? right.scalars n).or (Assoc.get? left.scalars n) else none

theorem text_of_document {d : Document} {b : Bundle} (made : ofSource (.document d) = .ok b) :
    b.sdl = Text.trim d.print := by
  rcases ofSource_cases made with same | fresh
  · cases same
  · exact fresh.text

theorem texts_of_mergeSdl {left right merged : Bundle}
    (merges : MergesSdlTo (.keepRight : ConflictPolicy (StateM σ)) left (.bundle right) merged) :
    ∃ l r, Texts left right merged l r := by
  obtain ⟨distinct, cache⟩ := scalars_of_mergeSdl merges
  obtain ⟨s, done⟩ := merges
  obtain ⟨other, l, r, first, same, left_read, right_read, printed, made⟩ := mergeSdl_steps done
  cases same
  have document : (l.merge (.keepRight : ConflictPolicy (StateM σ)) r).run s =
      (Merge.merged l r, s) := by
    rw [Merge.merge_keepRight, run_pure]
  rw [document] at printed made
  have text := text_of_document printed
  subst merged
  exact ⟨l, r, left_read, right_read, text, cache, distinct,
    get?_mergeScalars left.scalars right.scalars _ s⟩

theorem MergesByDefault.texts_of {left right merged : Bundle}
    (merges : MergesByDefault left right merged) : ∃ l r, Texts left right merged l r := by
  cases merges with
  | texts merges => exact texts_of_mergeSdl merges
  | bundles keeps merges =>
    obtain ⟨s, run⟩ := merges
    obtain ⟨first, map, _, texts, _, rfl⟩ := merge_steps run
    rw [keeps] at texts
    obtain ⟨l, r, made⟩ := texts_of_mergeSdl ⟨s, texts⟩
    exact ⟨l, r, made.left_read, made.right_read, made.text, rfl, made.distinct, made.scalars⟩

/-- The schema of a merge has for each scalar that is not built in the configuration of the right
side, else that of the left one, and the schema of what paring leaves of a bundle has that of the
bundle. -/
theorem scalars_carry_over {left : Bundle} (reached : left.Reached) {n : Name}
    (custom : n ∉ Schema.standardScalars) :
    (∀ right merged e b, MergesByDefault left right merged → merged.schema = .ok (e, b) →
        e.schema.isScalar n = true →
        Assoc.get? e.scalars n = (Assoc.get? right.scalars n).or (Assoc.get? left.scalars n)) ∧
      ∀ source pared e b, left.pare source = .ok pared → pared.schema = .ok (e, b) →
        e.schema.isScalar n = true → Assoc.get? e.scalars n = Assoc.get? left.scalars n := by
  constructor
  · intro right merged e b merges built scalar
    obtain ⟨l, r, made⟩ := merges.texts_of
    have printable := Merge.printable_merged (spelled_of_document made.left_read)
      (spelled_of_document made.right_read)
    obtain ⟨defined, same⟩ :=
      scalars_of_schema printable made.text made.cache made.distinct built custom scalar
    rw [same, made.scalars, if_pos defined]
  · intro source pared e b done built scalar
    obtain ⟨o, l, r, _, _, made⟩ := of_pare reached.sound done
    have printable := Document.printable_pare (spelled_of_document made.document) r left.map
    have distinct : pared.scalars.keys.Nodup := by
      rw [made.scalars]
      exact Assoc.nodup_filter reached.reachedFrom.coherent.distinct _
    obtain ⟨defined, same⟩ :=
      scalars_of_schema printable made.sdl made.cache distinct built custom scalar
    rw [same, made.scalars, Assoc.get?_filter left.scalars (l.pare r left.map).1.definesScalar n,
      if_pos defined]

/-- A configuration that serializes every value as one text. -/
def answering (text : String) : ScalarConfig := ⟨some fun _ => .ok (.string text), none, none⟩

/-- A bundle of a text that configures some scalars. -/
def configured (sdl : String) (names : List Name) (c : ScalarConfig) : Bundle :=
  names.foldl (fun b n => b.withScalar n c) (ofSdl sdl)

theorem reached_configured {sdl : String} (trimmed : Text.trim sdl = sdl)
    (full : sdl.isEmpty = false) (names : List Name) (c : ScalarConfig) :
    (configured sdl names c).Reached := by
  rw [configured]
  generalize ofSdl sdl = b, reached_ofSdl trimmed full = reached
  induction names generalizing b with
  | nil => exact reached
  | cons n rest ih => exact ih _ (.withScalar reached n c)

def calendar : Bundle :=
  configured "scalar Date scalar Time type Query \x7b d: Date t: Time \x7d" ["Date", "Time"]
    (answering "left")

def dates : Bundle := configured "scalar Date" ["Date"] (answering "right")

theorem scalars_carry_over_dates :
    ∃ merged e b pared eP bP, MergesByDefault calendar dates merged ∧ merged.schema = .ok (e, b) ∧
      Assoc.get? e.scalars "Date" = some (answering "right") ∧
      Assoc.get? e.scalars "Time" = some (answering "left") ∧
      calendar.pare (.sdl "scalar Date type Query \x7b d: Date \x7d") = .ok pared ∧
      pared.schema = .ok (eP, bP) ∧ Assoc.get? eP.scalars "Time" = some (answering "left") := by
  have reached : calendar.Reached := reached_configured (by decide +kernel) (by decide +kernel) _ _
  have merging : (((merge plainOptions calendar dates).run 0).run ()).1.1.toOption.any
      (fun merged => merged.schema.toOption.any fun result =>
        result.1.schema.isScalar "Date" && result.1.schema.isScalar "Time") = true := by
    decide +kernel
  have paring : (calendar.pare (.sdl "scalar Date type Query \x7b d: Date \x7d")).toOption.any
      (fun pared => pared.schema.toOption.any fun result =>
        result.1.schema.isScalar "Time") = true := by
    decide +kernel
  obtain ⟨merged, run, merging⟩ := ok_of_any merging
  obtain ⟨⟨e, b⟩, built, scalar⟩ := ok_of_any merging
  obtain ⟨pared, done, paring⟩ := ok_of_any paring
  obtain ⟨⟨eP, bP⟩, pared_built, pared_scalar⟩ := ok_of_any paring
  simp only [Bool.and_eq_true] at scalar
  have merges : MergesByDefault calendar dates merged := .bundles (o := plainOptions) rfl ⟨(), run⟩
  have date := (scalars_carry_over reached (n := "Date") (by decide)).1 _ _ _ _ merges built
    scalar.1
  have time := (scalars_carry_over reached (n := "Time") (by decide)).1 _ _ _ _ merges built
    scalar.2
  have left := (scalars_carry_over reached (n := "Time") (by decide)).2 _ _ _ _ done pared_built
    pared_scalar
  exact ⟨merged, e, b, pared, eP, bP, merges, built, date, time, done, pared_built, left⟩

def counting : Bundle := configured "type Query \x7b a: Int b: Int \x7d" ["Int"] (answering "left")

/-- The configuration of a built-in scalar, which a bundle attaches, is lost by merging and by
paring. -/
theorem builtin_scalars_dropped :
    ∃ right merged eL bL eM bM pared eP bP, counting.Reached ∧ right.Reached ∧
      right.scalars = [] ∧ Assoc.get? counting.scalars "Int" = some (answering "left") ∧
      counting.schema = .ok (eL, bL) ∧ (Assoc.get? eL.scalars "Int").isSome = true ∧
      MergesByDefault counting right merged ∧ merged.schema = .ok (eM, bM) ∧
      eM.schema.isScalar "Int" = true ∧ Assoc.get? eM.scalars "Int" = none ∧
      counting.pare (.sdl "type Query \x7b a: Int \x7d") = .ok pared ∧
      pared.schema = .ok (eP, bP) ∧ eP.schema.isScalar "Int" = true ∧
      Assoc.get? eP.scalars "Int" = none := by
  have reached : counting.Reached := reached_configured (by decide +kernel) (by decide +kernel) _ _
  have beside : (ofSdl "type P \x7b n: Int \x7d").Reached :=
    reached_ofSdl (by decide +kernel) (by decide +kernel)
  have attaching : counting.schema.toOption.any
      (fun result => (Assoc.get? result.1.scalars "Int").isSome) = true := by
    decide +kernel
  have merging : (((merge plainOptions counting (ofSdl "type P \x7b n: Int \x7d")).run 0).run
      ()).1.1.toOption.any (fun merged => merged.schema.toOption.any fun result =>
        result.1.schema.isScalar "Int" && (Assoc.get? result.1.scalars "Int").isNone) = true := by
    decide +kernel
  have paring : (counting.pare (.sdl "type Query \x7b a: Int \x7d")).toOption.any
      (fun pared => pared.schema.toOption.any fun result =>
        result.1.schema.isScalar "Int" && (Assoc.get? result.1.scalars "Int").isNone) = true := by
    decide +kernel
  obtain ⟨⟨eL, bL⟩, left_built, attached⟩ := ok_of_any attaching
  obtain ⟨merged, run, merging⟩ := ok_of_any merging
  obtain ⟨⟨eM, bM⟩, built, lost⟩ := ok_of_any merging
  obtain ⟨pared, done, paring⟩ := ok_of_any paring
  obtain ⟨⟨eP, bP⟩, pared_built, pared_lost⟩ := ok_of_any paring
  simp only [Bool.and_eq_true, Option.isNone_iff_eq_none] at lost pared_lost
  exact ⟨_, merged, eL, bL, eM, bM, pared, eP, bP, reached, beside, rfl, rfl, left_built, attached,
    .bundles (o := plainOptions) rfl ⟨(), run⟩, built, lost.1, lost.2, done, pared_built,
    pared_lost.1, pared_lost.2⟩

end Bundle
end
end SchemaStitch
