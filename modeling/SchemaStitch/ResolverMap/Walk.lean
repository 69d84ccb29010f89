import SchemaStitch.ResolverMap.Basic

/-!
Walks through resolver maps. A walk hands every resolver to a visitor, which answers what stands in
its place, and builds the map of the answers. A raw value is either wrapped in a resolver first or
makes the walk stumble. The strict walk ends at the first stumble; the lenient one leaves out the
branch that holds it and goes on.
-/
namespace SchemaStitch

/-- Why a walk stumbled: the entry in the way with its text, where it stands, the map that holds it
and the map built so far. A branch that was left out has the stumble inside it as its cause. -/
structure Stumble where
  key : String
  value : String
  path : List String
  reason : String
  source : ResolverMap
  built : ResolverMap
  cause : Option Stumble

namespace Stumble

/-- The text of a stumble. -/
def text (e : Stumble) : String :=
  "resolver map stumbled on \x60" ++ e.key ++ "\x60 at [" ++ ".".intercalate e.path ++ "]: " ++
    e.reason

/-- A raw value that is not wrapped. -/
def onValue (key : String) (v : Json) (path : List String) (source built : ResolverMap) : Stumble :=
  ⟨key, v.render, path, "leaf is neither a resolver nor a nested map", source, built, none⟩

/-- A branch that is left out. -/
def onBranch (key : String) (branch : ResolverMap) (path : List String) (source built : ResolverMap)
    (cause : Stumble) : Stumble :=
  ⟨key, branch.inspect, path, "skipped branch \x60" ++ key ++ "\x60", source, built, some cause⟩

end Stumble

/-- What a visitor is shown: a resolver, its key, the path of its branch and the whole map. -/
structure Visit where
  key : String
  resolver : Resolver
  path : List String
  root : ResolverMap

/-- Answers what stands in the place of a resolver; without an answer it is dropped. -/
abbrev Visitor (m : Type → Type) := Visit → m (Option Resolver)

namespace ResolverMap

variable {m : Type → Type} [Monad m] [Fresh m]

/-- What is common to all steps of a walk: the visitor, whether values are wrapped, the path at
which the walk starts and the whole map. -/
structure Tour (m : Type → Type) where
  visitor : Visitor m
  wrap : Bool
  start : List String
  root : ResolverMap

/-- Shows a resolver to the visitor. -/
def Tour.ask (t : Tour m) (here : List String) (key : String) (r : Resolver) :
    m (Option Resolver) :=
  t.visitor ⟨key, r, t.start ++ here, t.root⟩

/-- Walks a part of a branch strictly. `here` is the path of the branch from the whole map, `whole`
the branch itself, and answers are written into `built`. -/
def strictFrom (t : Tour m) (here : List String) (whole : ResolverMap) (built : ResolverMap) :
    ResolverMap → m (Except Stumble ResolverMap)
  | .nil => return .ok built
  | .leaf key (.resolver r) rest => do
    match ← t.ask here key r with
    | some answer => strictFrom t here whole (built.setAt key (entry answer) here).1 rest
    | none => strictFrom t here whole built rest
  | .leaf key (.value v) rest => do
    if t.wrap then
      match ← t.ask here key (← Resolver.constant v) with
      | some answer => strictFrom t here whole (built.setAt key (entry answer) here).1 rest
      | none => strictFrom t here whole built rest
    else return .error (.onValue key v (t.start ++ here) whole built)
  | .branch key sub rest => do
    match ← strictFrom t (here ++ [key]) sub built sub with
    | .error e => return .error e
    | .ok built => strictFrom t here whole built rest

/-- Walks a map strictly. -/
def walk (visitor : Visitor m) (wrap : Bool) (start : List String) (map : ResolverMap) :
    m (Except Stumble ResolverMap) :=
  strictFrom ⟨visitor, wrap, start, map⟩ [] map .nil map

/-- Walks a part of a branch leniently; `built` is what the branch has become so far, and the
branches left out are collected in `skips`. -/
def lenientFrom (t : Tour m) (here : List String) (whole : ResolverMap) (built : ResolverMap)
    (skips : List Stumble) : ResolverMap → m (Except Stumble ResolverMap × List Stumble)
  | .nil => return (.ok built, skips)
  | .leaf key (.resolver r) rest => do
    match ← t.ask here key r with
    | some answer => lenientFrom t here whole (built.insert key (entry answer)) skips rest
    | none => lenientFrom t here whole built skips rest
  | .leaf key (.value v) rest => do
    if t.wrap then
      match ← t.ask here key (← Resolver.constant v) with
      | some answer => lenientFrom t here whole (built.insert key (entry answer)) skips rest
      | none => lenientFrom t here whole built skips rest
    else return (.error (.onValue key v (t.start ++ here) whole built), skips)
  | .branch key sub rest => do
    match ← lenientFrom t (here ++ [key]) sub .nil skips sub with
    | (.ok walked, skips) =>
      let built := if walked.isEmpty then built else built.insert key (.branch walked)
      lenientFrom t here whole built skips rest
    | (.error e, skips) =>
      let skip := Stumble.onBranch key sub (t.start ++ here) whole built e
      lenientFrom t here whole built (skips ++ [skip]) rest

/-- Walks a map leniently; answers also the branches left out, inner ones before outer ones. Only a
value in the map itself makes it fail. -/
def walkLeniently (visitor : Visitor m) (wrap : Bool) (start : List String) (map : ResolverMap) :
    m (Except Stumble ResolverMap × List Stumble) :=
  lenientFrom ⟨visitor, wrap, start, map⟩ [] map .nil [] map

/-- The visitor that keeps every resolver. -/
def keep : Visitor m := fun v => return some v.resolver

end ResolverMap
end SchemaStitch
