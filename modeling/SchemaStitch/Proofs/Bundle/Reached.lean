import SchemaStitch.Proofs.Bundle.Stitching
import SchemaStitch.Proofs.Pare

/-! The bundles that the operations of the library make. Each operation keeps what holds of a
bundle, so it holds of every bundle that any sequence of operations makes. -/
namespace SchemaStitch
open Sdl

theorem ResolverMap.Plain.less {after before : ResolverMap} (plain : before.Plain)
    (less : after.Less before) : after.Plain :=
  fun path l found => plain path l (less.leaves path l found)

namespace Bundle

variable {σ : Type}

/-- Whether a merge that starts with `next` identities drawn, in some state of its policy, answers a
bundle. -/
def MergesTo (o : MergeOptions (StateM σ)) (left right : Bundle) (next : Nat) (merged : Bundle) :
    Prop :=
  ∃ s, (((merge o left right).run next).run s).1.1 = .ok merged

/-- Whether a merge of texts, in some state of its policy, answers a bundle. -/
def MergesSdlTo (p : ConflictPolicy (StateM σ)) (left : Bundle) (right : Source) (merged : Bundle) :
    Prop :=
  ∃ s, ((mergeSdl p left right).run s).1 = .ok merged

theorem map_setResolvers (map : ResolverMap) (b : Bundle) : (b.setResolvers map).map = map := by
  rw [Bundle.map, setResolvers]
  cases map <;> rfl

theorem Sound.setResolvers {b : Bundle} {map : ResolverMap}
    (history : ∀ s ∈ b.history, s.Sound) (keyed : map.Keyed) : (b.setResolvers map).Sound := by
  refine ⟨?_, history, ?_⟩
  · rwa [map_setResolvers]
  · intro e cached
    simp [Bundle.setResolvers] at cached

/-- What holds of a bundle without resolvers and history. -/
structure Fresh (b : Bundle) : Prop where
  resolvers : b.resolvers = none
  history : b.history = []
  cache : ∀ e, b.cache = some e → e.Fits none

theorem Fresh.sound {b : Bundle} (fresh : b.Fresh) : b.Sound := by
  refine ⟨?_, ?_, ?_⟩
  · rw [Bundle.map, fresh.resolvers]
    trivial
  · simp [fresh.history]
  · rw [fresh.resolvers]
    exact fresh.cache

/-- A bundle is made from a source afresh, unless the source is a bundle. -/
theorem of_ofSource {source : Source} {b : Bundle} (made : ofSource source = .ok b) :
    source = .bundle b ∨ b.Fresh := by
  refine (ofSource_cases made).imp_right fun fresh =>
    ⟨fresh.resolvers, fresh.history, fun e cached => ?_⟩
  rw [fresh.cache] at cached
  obtain ⟨s, _, rfl⟩ := Option.map_eq_some_iff.mp cached
  exact Executable.fits_bare rfl rfl

theorem Sound.ofParts {source : Source} {map : ResolverMap} {b : Bundle} (keyed : map.Keyed)
    (sound : ∀ own, source = .bundle own → own.Sound) (made : ofParts source map = .ok b) :
    b.Sound := by
  obtain ⟨first, begun, parts⟩ := ofParts_cases made
  have first_sound : first.Sound := by
    rcases of_ofSource begun with own | fresh
    · exact sound first own
    · exact fresh.sound
  rcases parts with ⟨_, s, _, _, _, rfl⟩ | rfl
  · refine ⟨keyed, first_sound.history, fun e cached => ?_⟩
    cases cached
    exact Executable.fits_bindMap rfl map
  · exact Sound.setResolvers first_sound.history keyed

/-- A merge of texts makes its bundle afresh. -/
theorem of_mergeSdl {p : ConflictPolicy (StateM σ)} {left merged : Bundle} {right : Source}
    (merges : MergesSdlTo p left right merged) : merged.Fresh := by
  obtain ⟨s, done⟩ := merges
  obtain ⟨_, _, _, first, _, _, _, printed, rfl⟩ := mergeSdl_steps done
  rcases of_ofSource printed with same | fresh
  · cases same
  · exact ⟨fresh.resolvers, fresh.history, fresh.cache⟩

/-- What a merge makes of two bundles. -/
structure Joined (o : MergeOptions (StateM σ)) (left right : Bundle) (next : Nat) (merged : Bundle)
    (l r : Snapshot) : Prop where
  history : merged.history = left.history ++ right.history ++ [l, r]
  cache : merged.cache = none
  left_sound : l.Sound
  right_sound : r.Sound
  right_pruned : r.resolvers.Pruned
  left_stripped : ResolverMap.Renewed (fun r r' => r' = r.unmerged) left.map l.resolvers
  right_stripped : ResolverMap.Renewed (fun r r' => r' = r.unmerged) right.map r.resolvers
  stitched : Stitched o merged merged.history next merged.map

/-- What follows the merge of texts. -/
def join {m : Type → Type} (o : MergeOptions m) (left right first : Bundle) :
    Supply (Except StitchError Bundle) := do
  let history ← mergedHistory left right
  let map ← (stitch o first history).run
  return map.map fun map => { first with history }.setResolvers map

theorem merge_run (o : MergeOptions (StateM σ)) (left right : Bundle) (next : Nat) (s : σ) :
    (((merge o left right).run next).run s).1.1 =
      match ((mergeSdl o.conflicts left (.bundle right)).run s).1 with
      | .error cause => .error cause
      | .ok first => ((join o left right first).run next).1 := by
  change ((((match ((mergeSdl o.conflicts left (.bundle right)).run s).1 with
      | .error cause => pure (.error cause)
      | .ok first => modifyGet fun next => (join o left right first).run next :
        StateT Nat (StateM σ) (Except StitchError Bundle)).run next).run
      ((mergeSdl o.conflicts left (.bundle right)).run s).2).1.1) = _
  generalize (mergeSdl o.conflicts left (.bundle right)).run s = texts
  obtain ⟨result, s⟩ := texts
  cases result <;> rfl

/-- A merge puts the stitched resolvers and the history beside what the merge of texts made. -/
theorem merge_steps {o : MergeOptions (StateM σ)} {left right merged : Bundle} {next : Nat} {s : σ}
    (run : (((merge o left right).run next).run s).1.1 = .ok merged) :
    ∃ first map n, ((mergeSdl o.conflicts left (.bundle right)).run s).1 = .ok first ∧
      (stitch o first ((mergedHistory left right).run next).1).run.run
        ((mergedHistory left right).run next).2 = (.ok map, n) ∧
      merged = { first with history := ((mergedHistory left right).run next).1 }.setResolvers map := by
  rw [merge_run] at run
  split at run
  · cases run
  · rename_i first texts
    rw [join, run_bind, run_bind, run_pure] at run
    generalize (mergedHistory left right).run next = recorded at run
    cases ran : (stitch o first recorded.1).run.run recorded.2 with
    | mk result n =>
      rw [ran] at run
      cases result with
      | error cause => cases run
      | ok map =>
        cases run
        exact ⟨first, map, n, texts, ran, rfl⟩

/-- What holds of all that two sides bring to a merge holds of its history. -/
theorem forall_joined {P : Snapshot → Prop} {left right : List Snapshot} {l r : Snapshot}
    (of_left : ∀ s ∈ left, P s) (of_right : ∀ s ∈ right, P s) (of_l : P l) (of_r : P r) :
    ∀ s ∈ left ++ right ++ [l, r], P s := by
  intro s member
  simp only [List.mem_append, List.mem_cons, List.not_mem_nil, or_false] at member
  rcases member with (member | member) | rfl | rfl
  · exact of_left s member
  · exact of_right s member
  · exact of_l
  · exact of_r

theorem mergedHistory_run {left right : Bundle} (left_sound : left.Sound)
    (right_sound : right.Sound) (next : Nat) :
    ∃ l r n', (mergedHistory left right).run next =
        (left.history ++ right.history ++ [l, r], n') ∧ next ≤ n' ∧ l.Sound ∧ r.Sound ∧
      r.resolvers.Pruned ∧
      ResolverMap.Renewed (fun r r' => r' = r.unmerged) left.map l.resolvers ∧
      ResolverMap.Renewed (fun r r' => r' = r.unmerged) right.map r.resolvers := by
  obtain ⟨l, n₁, left_run, drawn, l_sound, _, l_stripped⟩ := left_sound.capture (Nat.le_refl next)
  obtain ⟨r, n₂, right_run, drawn, r_sound, pruned, r_stripped⟩ := right_sound.capture drawn
  refine ⟨l, r, n₂, ?_, drawn, l_sound, r_sound, pruned, l_stripped, r_stripped⟩
  rw [mergedHistory, run_bind, left_run, run_bind, right_run]
  rfl

/-- A merge takes in what both sides have brought in before and what they bring in now. -/
theorem of_merge {o : MergeOptions (StateM σ)} {left right merged : Bundle} {next : Nat}
    (left_sound : left.Sound) (right_sound : right.Sound)
    (merges : MergesTo o left right next merged) :
    ∃ l r, Joined o left right next merged l r := by
  obtain ⟨s, done⟩ := merges
  rw [merge_run] at done
  split at done
  · cases done
  · rename_i first texts
    obtain ⟨l, r, n, run, drawn, l_sound, r_sound, pruned, l_stripped, r_stripped⟩ :=
      mergedHistory_run left_sound right_sound next
    have sound : ∀ s ∈ left.history ++ right.history ++ [l, r], s.Sound :=
      forall_joined left_sound.history right_sound.history l_sound r_sound
    rw [join, run_bind, run, run_bind, run_pure] at done
    dsimp only at done
    cases ran : (stitch o first (left.history ++ right.history ++ [l, r])).run.run n with
    | mk result n' =>
      rw [ran] at done
      cases result with
      | error cause => cases done
      | ok map =>
        have together := stitched sound drawn ran
        cases done
        refine ⟨l, r, rfl, rfl, l_sound, r_sound, pruned, l_stripped, r_stripped, ?_⟩
        rw [map_setResolvers]
        exact ⟨together.keyed, together.steps⟩

theorem Sound.merge {o : MergeOptions (StateM σ)} {left right merged : Bundle} {next : Nat}
    (left_sound : left.Sound) (right_sound : right.Sound)
    (merges : MergesTo o left right next merged) : merged.Sound := by
  obtain ⟨l, r, joined⟩ := of_merge left_sound right_sound merges
  refine ⟨joined.stitched.keyed, ?_, ?_⟩
  · rw [joined.history]
    exact forall_joined left_sound.history right_sound.history joined.left_sound
      joined.right_sound
  · intro e cached
    rw [joined.cache] at cached
    contradiction

/-- What paring makes of a bundle, with its document and that of the other side. -/
structure Pared (b pared : Bundle) (left right : Document) : Prop where
  document : b.document = .ok left
  map : pared.map = (left.pare right b.map).2
  history : pared.history =
    b.history.map fun s => { s with resolvers := (left.pare right s.resolvers).2 }
  cache : pared.cache = none
  sdl : pared.sdl = Text.trim (left.pare right b.map).1.print
  scalars : pared.scalars =
    b.scalars.filter fun pair => (left.pare right b.map).1.definesScalar pair.1

theorem of_pare {b pared : Bundle} {other : Source} (sound : b.Sound)
    (done : b.pare other = .ok pared) :
    ∃ o left right, ofSource other = .ok o ∧ o.document = .ok right ∧ Pared b pared left right := by
  rw [Bundle.pare, sound.currentResolvers] at done
  cases begun : ofSource other with
  | error cause => simp [begun, bind, Except.bind] at done
  | ok o =>
    cases own : b.document with
    | error cause => simp [begun, own, bind, Except.bind] at done
    | ok left =>
      cases others : o.document with
      | error cause => simp [begun, own, others, bind, Except.bind] at done
      | ok right =>
        simp only [begun, own, others, bind, Except.bind, pure, Except.pure, Except.ok.injEq] at done
        subst pared
        refine ⟨o, left, right, rfl, others, own, ?_, rfl, rfl, rfl, rfl⟩
        exact map_setResolvers (left.pare right b.map).2 b

theorem Sound.pare {b pared : Bundle} {other : Source} (sound : b.Sound)
    (done : b.pare other = .ok pared) : pared.Sound := by
  obtain ⟨o, left, right, _, _, made⟩ := of_pare sound done
  refine ⟨?_, ?_, ?_⟩
  · rw [made.map]
    exact (left.pare_less right sound.keyed).keyed
  · intro s member
    rw [made.history, List.mem_map] at member
    obtain ⟨s, member, rfl⟩ := member
    have less := left.pare_less right (sound.history s member).keyed
    exact ⟨less.keyed, (sound.history s member).plain.less less⟩
  · intro e cached
    rw [made.cache] at cached
    contradiction

/-- The bundles that sequences of operations make. Maps that are handed in hold no key twice. -/
inductive Reached : Bundle → Prop
  | ofSource {source : Source} {b : Bundle} (own : ∀ o, source = .bundle o → Reached o)
      (made : ofSource source = .ok b) : Reached b
  | ofParts {source : Source} {map : ResolverMap} {b : Bundle}
      (own : ∀ o, source = .bundle o → Reached o) (keyed : map.Keyed)
      (made : ofParts source map = .ok b) : Reached b
  | setResolvers {map : ResolverMap} {b : Bundle} (before : Reached b) (keyed : map.Keyed) :
      Reached (b.setResolvers map)
  | withScalar {b : Bundle} (before : Reached b) (name : Name) (c : ScalarConfig) :
      Reached (b.withScalar name c)
  | clear {b : Bundle} (before : Reached b) : Reached b.clear
  | schema {b b' : Bundle} {e : Executable} (before : Reached b)
      (built : b.schema = .ok (e, b')) : Reached b'
  | mergeSdl {σ : Type} {p : ConflictPolicy (StateM σ)} {left merged : Bundle} {right : Source}
      (merges : MergesSdlTo p left right merged) : Reached merged
  | merge {σ : Type} {o : MergeOptions (StateM σ)} {left right merged : Bundle} {next : Nat}
      (before : Reached left) (beside : Reached right)
      (merges : MergesTo o left right next merged) : Reached merged
  | pare {b pared : Bundle} {other : Source} (before : Reached b)
      (done : b.pare other = .ok pared) : Reached pared

theorem Reached.sound {b : Bundle} (reached : b.Reached) : b.Sound := by
  induction reached with
  | ofSource own made ih =>
    rcases of_ofSource made with same | fresh
    · exact ih _ same
    · exact fresh.sound
  | ofParts own keyed made ih => exact Sound.ofParts keyed ih made
  | setResolvers before keyed ih => exact Sound.setResolvers ih.history keyed
  | withScalar before name c ih => exact ⟨ih.keyed, ih.history, fun e cached => by cases cached⟩
  | clear before ih => exact ⟨ih.keyed, ih.history, fun e cached => by cases cached⟩
  | schema before built ih => exact (ih.schema built).2.1
  | mergeSdl merges => exact (of_mergeSdl merges).sound
  | merge before beside merges left_ih right_ih => exact left_ih.merge right_ih merges
  | pare before done ih => exact ih.pare done

/-- The bundle of a text. -/
def ofSdl (sdl : String) : Bundle := ⟨sdl, none, [], [], none⟩

/-- The bundle of a text with a resolver map. -/
def ofText (sdl : String) (map : ResolverMap) : Bundle := ⟨sdl, some map, [], [], none⟩

theorem reached_ofSdl {sdl : String} (trimmed : Text.trim sdl = sdl) (full : sdl.isEmpty = false) :
    (ofSdl sdl).Reached := by
  have made : ofSource (.sdl sdl) = .ok (ofSdl sdl) := by
    simp [ofSource, Source.normalize, trimmed, full, Source.schema?, bind, Except.bind, pure,
      Except.pure, ofSdl]
  exact .ofSource (fun _ same => by cases same) made

theorem reached_ofText (sdl : String) (map : ResolverMap) (trimmed : Text.trim sdl = sdl)
    (full : sdl.isEmpty = false) (keyed : map.Keyed) (entries : map.isEmpty = false) :
    (ofText sdl map).Reached := by
  have reached := Reached.setResolvers (reached_ofSdl trimmed full) keyed
  rwa [setResolvers, entries] at reached

/-- A resolver with an identity that answers null. -/
def plainResolver (id : Nat) : Resolver := .function ⟨id, .info, none⟩ fun _ => return .ok .null

/-- A merge in which nothing is filled in, injected or decided by hand. -/
def plainOptions : MergeOptions (StateM Unit) := ⟨.keepRight, [], true, false⟩

end Bundle

/-- A test that the result of a run passes tells that there is a result. -/
theorem ok_of_any {ε α : Type} {result : Except ε α} {p : α → Bool}
    (passes : result.toOption.any p = true) : ∃ a, result = .ok a ∧ p a = true := by
  cases result with
  | error cause => simp [Except.toOption] at passes
  | ok a => exact ⟨a, rfl, by simpa [Except.toOption] using passes⟩

end SchemaStitch
