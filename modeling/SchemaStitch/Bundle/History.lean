import SchemaStitch.Bundle.Basic

/-!
The history of merges: what each side brought in, without what merges put around it, and the one map
that all of it makes, later sides winning.
-/
namespace SchemaStitch

/-- A resolver map without what merges have put around its resolvers; raw values become resolvers.
-/
def ResolverMap.unmerged (map : ResolverMap) : Supply ResolverMap := do
  match ← map.walk (fun v => return some v.resolver.unmerged) true [] with
  | .ok walked => return walked
  | .error _ => return map

namespace Snapshot

/-- What a bundle brings into a merge. -/
def capture (b : Bundle) : Supply Snapshot := do
  let resolvers ← match b.currentResolvers with
    | some map => map.unmerged
    | none => pure .nil
  return ⟨b.cache, if b.sdl.isEmpty then none else some b.sdl, resolvers⟩

/-- The resolvers of all snapshots, later ones laid over earlier ones. -/
def foldAll (history : List Snapshot) : ResolverMap :=
  history.foldl (fun map s => map.overlay s.resolvers) .nil

end Snapshot
end SchemaStitch
