import SchemaStitch.Bundle.Pare
import SchemaStitch.Proofs.Bundle.Binding
import SchemaStitch.Proofs.Bundle.Steps
import SchemaStitch.Proofs.Resolver.Layers

/-! What holds of every bundle that the library makes: keys are distinct throughout its resolver
maps, its history holds nothing that merges put around resolvers, and the executable schema that it
keeps is the one its own map would be bound to. -/
namespace SchemaStitch
open Sdl

/-- Every leaf is a resolver without what merges put around it. -/
def ResolverMap.Plain (map : ResolverMap) : Prop :=
  ∀ path l, map.leaf? path = some l → ∃ r, l = .resolver r ∧ r.unmerged = r

/-- What holds of every snapshot. -/
structure Snapshot.Sound (s : Snapshot) : Prop where
  keyed : s.resolvers.Keyed
  plain : s.resolvers.Plain

/-- The executable schema is bound to the resolvers of a bundle, and counts as executable if there
are any. -/
structure Executable.Fits (e : Executable) (resolvers : Option ResolverMap) : Prop where
  binds : e.Binds (resolvers.getD .nil)
  executable : e.isExecutable = resolvers.isSome

namespace Bundle

/-- The resolver map of a bundle; without resolvers it has no entries. -/
def map (b : Bundle) : ResolverMap := b.resolvers.getD .nil

/-- What holds of every bundle. -/
structure Sound (b : Bundle) : Prop where
  keyed : b.map.Keyed
  history : ∀ s ∈ b.history, s.Sound
  cache : ∀ e, b.cache = some e → e.Fits b.resolvers

end Bundle

namespace Executable

theorem fits_bare {e : Executable} (bare : e.bound = []) (idle : e.isExecutable = false) :
    e.Fits none := by
  have nothing (type field : Name) : e.resolver? type field = none := by
    rw [resolver?, bare]
    rfl
  refine ⟨⟨?_, ?_⟩, idle⟩
  · intro type field _
    rw [nothing]
    simp [choose?, ResolverMap.resolver?_eq_leaf?, ResolverMap.flat?_eq_leaf?]
  · intro type field r bound
    rw [nothing] at bound
    contradiction

theorem fits_bindMap {e : Executable} (bare : e.bound = []) (map : ResolverMap) :
    (e.bindMap map).Fits (some map) := ⟨binds_bindMap bare map, rfl⟩

/-- Attaches configurations to scalars. -/
def withScalars (scalars : ScalarConfigs) (e : Executable) : Executable :=
  scalars.foldl (fun e (name, c) => (e.setScalar name c).1) e

theorem setScalar_keeps (name : Name) (c : ScalarConfig) (e : Executable) :
    (e.setScalar name c).1.schema = e.schema ∧ (e.setScalar name c).1.bound = e.bound ∧
      (e.setScalar name c).1.isExecutable = e.isExecutable := by
  rw [setScalar]
  split <;> exact ⟨rfl, rfl, rfl⟩

/-- Attaching configurations binds nothing. -/
theorem withScalars_keeps (scalars : ScalarConfigs) (e : Executable) :
    (e.withScalars scalars).schema = e.schema ∧ (e.withScalars scalars).bound = e.bound ∧
      (e.withScalars scalars).isExecutable = e.isExecutable := by
  induction scalars generalizing e with
  | nil => exact ⟨rfl, rfl, rfl⟩
  | cons pair rest ih =>
    obtain ⟨schema, bound, executable⟩ := ih (e.setScalar pair.1 pair.2).1
    obtain ⟨same_schema, same_bound, same_state⟩ := e.setScalar_keeps pair.1 pair.2
    exact ⟨schema.trans same_schema, bound.trans same_bound, executable.trans same_state⟩

end Executable

theorem Executable.Fits.typed {e : Executable} {b : Bundle} (fits : e.Fits b.resolvers)
    {type field : Name} (stands : e.schema.HasField type field) {r : Resolver}
    (typed : b.map.leaf? [type, field] = some (.resolver r)) : e.resolver? type field = some r := by
  rw [fits.binds.at_field type field stands]
  exact Executable.choose?_typed typed

theorem Executable.Fits.flat {e : Executable} {b : Bundle} (fits : e.Fits b.resolvers)
    {type field : Name} (stands : e.schema.HasField type field) {r : Resolver}
    (untyped : b.map.leaf? [type, field] = none) (root : e.schema.isRoot type = true)
    (flat : b.map.leaf? [field] = some (.resolver r)) : e.resolver? type field = some r := by
  rw [fits.binds.at_field type field stands]
  exact Executable.choose?_flat untyped root flat

namespace Bundle

theorem fits_build {b : Bundle} {e : Executable} (built : b.build = .ok e) :
    e.Fits b.resolvers := by
  rw [build] at built
  cases typed : b.typeSchema with
  | error cause => simp [typed, bind, Except.bind] at built
  | ok s =>
    simp only [typed, bind, Except.bind, pure, Except.pure, Except.ok.injEq] at built
    obtain ⟨_, bound, executable⟩ :=
      Executable.withScalars_keeps b.scalars (Executable.ofSchema s)
    rw [Executable.withScalars] at bound executable
    subst e
    cases b.resolvers with
    | some map => exact Executable.fits_bindMap bound map
    | none => exact Executable.fits_bare bound executable

/-- What is built has the types that the text describes. -/
theorem typed_of_build {b : Bundle} {e : Executable} (built : b.build = .ok e) :
    b.typeSchema = .ok e.schema := by
  rw [build] at built
  cases typed : b.typeSchema with
  | error cause => simp [typed, bind, Except.bind] at built
  | ok s =>
    simp only [typed, bind, Except.bind, pure, Except.pure, Except.ok.injEq] at built
    have schema := (Executable.withScalars_keeps b.scalars (Executable.ofSchema s)).1
    rw [Executable.withScalars] at schema
    subst e
    cases b.resolvers with
    | some map =>
      have same := (Executable.schema_bindMap map _).trans schema
      exact congrArg Except.ok same.symm
    | none => exact congrArg Except.ok schema.symm

/-- The executable schema that a bundle hands out fits its resolvers, and keeping it changes nothing
else. -/
theorem Sound.schema {b b' : Bundle} {e : Executable} (sound : b.Sound)
    (built : b.schema = .ok (e, b')) :
    e.Fits b.resolvers ∧ b'.Sound ∧ b'.resolvers = b.resolvers ∧ b'.history = b.history := by
  rcases schema_cases built with ⟨cached, rfl⟩ | ⟨made, rfl⟩
  · exact ⟨sound.cache e cached, sound, rfl, rfl⟩
  · have fits := fits_build made
    refine ⟨fits, ⟨sound.keyed, sound.history, ?_⟩, rfl, rfl⟩
    intro e cached
    cases cached
    exact fits

/-- What a bundle would bring into a merge are the resolvers that it stores. -/
theorem Sound.currentResolvers {b : Bundle} (sound : b.Sound) :
    b.currentResolvers = b.resolvers := by
  rw [Bundle.currentResolvers]
  cases stored : b.resolvers with
  | some map => rfl
  | none =>
    cases cached : b.cache with
    | none => rfl
    | some e =>
      have idle := (sound.cache e cached).executable
      simp [idle, stored]

theorem plain_unmerged {map out : ResolverMap}
    (answers : ResolverMap.Renewed (fun r r' => r' = r.unmerged) map out) : out.Plain := by
  intro path l found
  have answered := answers path
  rw [found] at answered
  generalize map.leaf? path = before at answered
  cases answered with
  | answer good =>
    obtain ⟨seen, _, rfl⟩ := good
    exact ⟨_, rfl, Resolver.unmerged_unmerged seen⟩

/-- What a bundle brings into a merge, leaf by leaf. -/
theorem Sound.capture {b : Bundle} (sound : b.Sound) {first n : Nat} (drawn : first ≤ n) :
    ∃ s n', (Snapshot.capture b).run n = (s, n') ∧ first ≤ n' ∧ s.Sound ∧ s.resolvers.Pruned ∧
      ResolverMap.Renewed (fun r r' => r' = r.unmerged) b.map s.resolvers := by
  have keyed := sound.keyed
  rw [Snapshot.capture, sound.currentResolvers, map] at *
  cases stored : b.resolvers with
  | none =>
    refine ⟨_, n, rfl, drawn, ⟨trivial, ?_⟩, trivial, ?_⟩
    · intro path l found
      simp at found
    · intro path
      simp only [Option.getD_none, KeyTree.leaf?_nil]
      exact .nothing
  | some map =>
    rw [stored] at keyed
    obtain ⟨out, n', walked, later, out_keyed, pruned, answers⟩ :=
      ResolverMap.unmerged_run keyed drawn
    have run : (map.unmerged).run n = (out, n') := walked
    refine ⟨⟨b.cache, if b.sdl.isEmpty then none else some b.sdl, out⟩, n', ?_, later,
      ⟨out_keyed, plain_unmerged answers⟩, pruned, answers⟩
    rw [run_bind, run]
    rfl

end Bundle
end SchemaStitch
