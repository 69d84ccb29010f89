import Mathlib.Data.List.Induction
import SchemaStitch.Proofs.Bundle.Sound
import SchemaStitch.Proofs.KeyTree.Branches

/-! The resolvers of a merge, step by step: the history folded into one map, gaps filled, injectors
put around every resolver, and a layer through which every resolver sees the merged schema. -/
namespace SchemaStitch
open Sdl

namespace Snapshot

theorem foldAll_append (history : List Snapshot) (s : Snapshot) :
    foldAll (history ++ [s]) = (foldAll history).overlay s.resolvers := by
  simp [foldAll]

theorem keyed_foldAll {history : List Snapshot} (sound : ∀ s ∈ history, s.Sound) :
    (foldAll history).Keyed := by
  induction history using List.reverseRecOn with
  | nil => trivial
  | append_singleton history s ih =>
    rw [foldAll_append]
    exact (ih fun s member => sound s (by simp [member])).overlay (sound s (by simp)).keyed

/-- Every leaf of the folded map comes from one of the snapshots. -/
theorem leaf?_foldAll {history : List Snapshot} (sound : ∀ s ∈ history, s.Sound)
    {path : List String} {l : Leaf} (found : (foldAll history).leaf? path = some l) :
    ∃ s ∈ history, s.resolvers.leaf? path = some l := by
  induction history using List.reverseRecOn with
  | nil => simp [foldAll] at found
  | append_singleton history s ih =>
    rw [foldAll_append] at found
    rcases KeyTree.leaf?_of_overlay (sound s (by simp)).keyed found with own | before
    · exact ⟨s, by simp, own⟩
    · obtain ⟨earlier, member, stands⟩ := ih (fun s member => sound s (by simp [member])) before
      exact ⟨earlier, by simp [member], stands⟩

theorem plain_foldAll {history : List Snapshot} (sound : ∀ s ∈ history, s.Sound) :
    (foldAll history).Plain := by
  intro path l found
  obtain ⟨s, member, stands⟩ := leaf?_foldAll sound found
  exact (sound s member).plain path l stands

end Snapshot

namespace ResolverMap

/-- Filling a gap draws an identity and writes a resolver that nothing is put around. -/
theorem fill_run {map : ResolverMap} (keyed : map.Keyed) (plain : map.Plain) (s : Schema)
    (type field : Name) {first n : Nat} (drawn : first ≤ n) :
    ∃ out n', (fillMissing.fill s map type field).run n = (out, n') ∧ first ≤ n' ∧ out.Keyed ∧
      out.Plain := by
  rw [fillMissing.fill]
  split
  · exact ⟨map, n, rfl, drawn, keyed, plain⟩
  · refine ⟨_, _, rfl, Nat.le_succ_of_le drawn, keyed.setAt (e := .leaf _) trivial _ _, ?_⟩
    intro path l found
    rcases KeyTree.leaf?_of_setAt found with rfl | before
    · exact ⟨_, rfl, rfl⟩
    · exact plain path l before

theorem fillMissing_run {map : ResolverMap} (keyed : map.Keyed) (plain : map.Plain) (s : Schema)
    {first n : Nat} (drawn : first ≤ n) :
    ∃ out n', (map.fillMissing s).run n = (out, n') ∧ first ≤ n' ∧ out.Keyed ∧ out.Plain := by
  rw [fillMissing]
  generalize s.fieldsByType.filter _ = places
  induction places generalizing map n with
  | nil => exact ⟨map, n, rfl, drawn, keyed, plain⟩
  | cons place rest ih =>
    obtain ⟨out, n', run, later, out_keyed, out_plain⟩ :=
      fill_run keyed plain s place.1.name place.2.name drawn
    rw [List.foldlM_cons, run_bind, run]
    exact ih out_keyed out_plain later

end ResolverMap
namespace Bundle

variable {m : Type → Type}

/-- A step that fails with the errors of the library ran to its end: so did the step before it. -/
theorem of_run_bind {α β : Type} {x : ExceptT StitchError Supply α}
    {next : α → ExceptT StitchError Supply β} {n n' : Nat} {b : β}
    (done : (x >>= next).run.run n = (.ok b, n')) :
    ∃ a k, x.run.run n = (.ok a, k) ∧ (next a).run.run k = (.ok b, n') := by
  rw [ExceptT.run_bind, run_bind] at done
  generalize x.run.run n = ran at done
  obtain ⟨result, k⟩ := ran
  cases result with
  | ok a => exact ⟨a, k, rfl, done⟩
  | error cause => cases done

theorem run_fromWalk (walked : Supply (Except Stumble ResolverMap)) (n : Nat) :
    (stitch.fromWalk walked).run.run n =
      ((walked.run n).1.mapError .stumble, (walked.run n).2) := rfl

/-- Fills gaps if the options say so. -/
def fillStep (o : MergeOptions m) (merged : Bundle) (map : ResolverMap) :
    ExceptT StitchError Supply ResolverMap :=
  if o.createMissing then do
    ExceptT.mk (Except.ok <$> map.fillMissing (← stitch.fromExcept merged.typeSchema))
  else pure map

/-- Puts injectors around every resolver if there are injectors. -/
def injectStep (o : MergeOptions m) (map : ResolverMap) : ExceptT StitchError Supply ResolverMap :=
  if !o.injectors.isEmpty then stitch.fromWalk (map.injectCalls o.injectors) else pure map

/-- Makes every resolver see the merged schema if the options say so. -/
def seeStep (o : MergeOptions m) (merged : Bundle) (map : ResolverMap) :
    ExceptT StitchError Supply ResolverMap :=
  if o.injectSchema && !map.isEmpty then do
    stitch.fromWalk (map.injectSchema (← stitch.fromExcept merged.typeSchema))
  else pure map

theorem stitch_eq (o : MergeOptions m) (merged : Bundle) (history : List Snapshot) :
    stitch o merged history =
      (fillStep o merged (Snapshot.foldAll history) >>= injectStep o) >>= seeStep o merged := by
  have inject : injectStep o = fun map =>
      if !o.injectors.isEmpty then stitch.fromWalk (map.injectCalls o.injectors)
      else pure map := rfl
  have see : seeStep o merged = fun map =>
      if o.injectSchema && !map.isEmpty then do
        stitch.fromWalk (map.injectSchema (← stitch.fromExcept merged.typeSchema))
      else pure map := rfl
  rw [stitch, fillStep, inject, see]
  cases o.createMissing <;> cases o.injectors.isEmpty <;> simp

theorem of_fillStep {o : MergeOptions m} {merged : Bundle} {map out : ResolverMap}
    (keyed : map.Keyed) (plain : map.Plain) {first n n' : Nat} (drawn : first ≤ n)
    (done : (fillStep o merged map).run.run n = (.ok out, n')) :
    first ≤ n' ∧ out.Keyed ∧ out.Plain ∧ (o.createMissing = false → out = map) := by
  rw [fillStep] at done
  split at done
  · rename_i on
    obtain ⟨s, k, typed, filled⟩ := of_run_bind done
    have same : n = k := congrArg Prod.snd typed
    subst k
    obtain ⟨own, k, run, later, own_keyed, own_plain⟩ :=
      ResolverMap.fillMissing_run keyed plain s drawn
    have result : (Except.ok own, k) = (Except.ok (ε := StitchError) out, n') := by
      rw [← filled, ExceptT.run_mk, StateT.run_map, run]
      rfl
    cases result
    exact ⟨later, own_keyed, own_plain, fun off => by simp [off] at on⟩
  · cases done
    exact ⟨drawn, keyed, plain, fun _ => rfl⟩

theorem of_injectStep {o : MergeOptions m} {map out : ResolverMap} (keyed : map.Keyed)
    {first n n' : Nat} (drawn : first ≤ n)
    (done : (injectStep o map).run.run n = (.ok out, n')) :
    first ≤ n' ∧ out.Keyed ∧
      ((o.injectors = [] ∧ out = map) ∨
        ResolverMap.Renewed (Resolver.Around o.injectors) map out) := by
  rw [injectStep] at done
  split at done
  · rename_i some_injector
    have some_injector : o.injectors.isEmpty = false := by simpa using some_injector
    obtain ⟨own, k, run, later, own_keyed, _, answers⟩ :=
      ResolverMap.injectCalls_run some_injector keyed drawn
    rw [run_fromWalk, run] at done
    cases done
    exact ⟨later, own_keyed, Or.inr answers⟩
  · rename_i without
    cases done
    exact ⟨drawn, keyed, Or.inl ⟨by simpa using without, rfl⟩⟩

theorem of_seeStep {o : MergeOptions m} {merged : Bundle} {map out : ResolverMap}
    (keyed : map.Keyed) {first n n' : Nat} (drawn : first ≤ n)
    (done : (seeStep o merged map).run.run n = (.ok out, n')) :
    out.Keyed ∧
      (((o.injectSchema = false ∨ map.isEmpty = true) ∧ out = map) ∨
        ∃ s, merged.typeSchema = .ok s ∧ o.injectSchema = true ∧
          ResolverMap.Renewed (Resolver.Sees s first) map out) := by
  rw [seeStep] at done
  split at done
  · rename_i on
    obtain ⟨s, k, typed, walked⟩ := of_run_bind done
    have same : n = k := congrArg Prod.snd typed
    subst k
    obtain ⟨own, k, run, _, own_keyed, _, answers⟩ :=
      ResolverMap.injectSchema_run s keyed drawn
    rw [run_fromWalk, run] at walked
    cases walked
    exact ⟨own_keyed, Or.inr ⟨s, congrArg Prod.fst typed, (Bool.and_eq_true_iff.mp on).1, answers⟩⟩
  · rename_i off
    cases done
    refine ⟨keyed, Or.inl ⟨?_, rfl⟩⟩
    cases switch : o.injectSchema with
    | false => exact Or.inl rfl
    | true =>
      right
      simpa [switch] using off

/-- How the resolvers of a merge come from its history. -/
structure Stitched (o : MergeOptions m) (merged : Bundle) (history : List Snapshot) (first : Nat)
    (out : ResolverMap) : Prop where
  keyed : out.Keyed
  steps : ∃ filled injected : ResolverMap, filled.Plain ∧
    (o.createMissing = false → filled = Snapshot.foldAll history) ∧
    ((o.injectors = [] ∧ injected = filled) ∨
      ResolverMap.Renewed (Resolver.Around o.injectors) filled injected) ∧
    (((o.injectSchema = false ∨ injected.isEmpty = true) ∧ out = injected) ∨
      ∃ s, merged.typeSchema = .ok s ∧ o.injectSchema = true ∧
        ResolverMap.Renewed (Resolver.Sees s first) injected out)

/-- Every leaf before the layer of a merge is a resolver that nothing was put around, with the injectors
of the options around it. -/
theorem of_injected {o : MergeOptions m} {filled injected : ResolverMap} (plain : filled.Plain)
    (around : (o.injectors = [] ∧ injected = filled) ∨
      ResolverMap.Renewed (Resolver.Around o.injectors) filled injected) {path : List String}
    {l : Leaf} (found : injected.leaf? path = some l) :
    ∃ r inner, l = .resolver inner ∧ r.unmerged = r ∧
      ((o.injectors = [] ∧ inner = r) ∨ Resolver.Around o.injectors r inner) := by
  rcases around with ⟨none_given, rfl⟩ | renewed
  · obtain ⟨r, rfl, same⟩ := plain path l found
    exact ⟨r, r, rfl, same, Or.inl ⟨none_given, rfl⟩⟩
  · have answered := renewed path
    rw [found] at answered
    generalize within : filled.leaf? path = before at answered
    cases answered with
    | answer good =>
      obtain ⟨seen, shown, around⟩ := good
      obtain ⟨r, rfl, same⟩ := plain path _ within
      obtain rfl := shown r rfl
      exact ⟨r, _, rfl, same, Or.inr around⟩

/-- Every leaf of a merge is a resolver that nothing was put around, with the injectors of the options
around it and, if the options say so, the layer around both that shows the merged schema. -/
theorem Stitched.leaf_cases {o : MergeOptions m} {merged : Bundle} {history : List Snapshot}
    {first : Nat} {out : ResolverMap} (stitched : Stitched o merged history first out)
    {path : List String} {l : Leaf} (found : out.leaf? path = some l) :
    ∃ r inner, r.unmerged = r ∧
      ((o.injectors = [] ∧ inner = r) ∨ Resolver.Around o.injectors r inner) ∧
      ((o.injectSchema = false ∧ l = .resolver inner) ∨
        (o.injectSchema = true ∧ ∃ s n, merged.typeSchema = .ok s ∧ first ≤ n ∧
          l = .resolver (inner.seeing s n))) := by
  obtain ⟨filled, injected, plain, _, around, sees⟩ := stitched.steps
  rcases sees with ⟨off | empty, rfl⟩ | ⟨s, typed, on, seen⟩
  · obtain ⟨r, inner, rfl, bare, around⟩ := of_injected plain around found
    exact ⟨r, inner, bare, around, .inl ⟨off, rfl⟩⟩
  · cases out with
    | nil => simp at found
    | leaf => cases empty
    | branch => cases empty
  · have answered := seen path
    rw [found] at answered
    generalize stands : injected.leaf? path = before at answered
    cases answered with
    | answer good =>
      obtain ⟨seen, own, n, drawn, rfl⟩ := good
      obtain ⟨r, inner, rfl, bare, around⟩ := of_injected plain around stands
      obtain rfl := own inner rfl
      exact ⟨r, inner, bare, around, .inr ⟨on, s, n, typed, drawn, rfl⟩⟩

theorem stitched {o : MergeOptions m} {merged : Bundle} {history : List Snapshot}
    {out : ResolverMap} (sound : ∀ s ∈ history, s.Sound) {first n n' : Nat} (drawn : first ≤ n)
    (done : (stitch o merged history).run.run n = (.ok out, n')) :
    Stitched o merged history first out := by
  rw [stitch_eq] at done
  obtain ⟨injected, n₂, done, seen⟩ := of_run_bind done
  obtain ⟨filled, n₁, fill, inject⟩ := of_run_bind done
  obtain ⟨drawn, keyed, plain, same⟩ := of_fillStep (Snapshot.keyed_foldAll sound)
    (Snapshot.plain_foldAll sound) drawn fill
  obtain ⟨drawn, keyed, around⟩ := of_injectStep keyed drawn inject
  obtain ⟨keyed, seeing⟩ := of_seeStep keyed drawn seen
  exact ⟨keyed, filled, injected, plain, same, around, seeing⟩

end Bundle
end SchemaStitch
