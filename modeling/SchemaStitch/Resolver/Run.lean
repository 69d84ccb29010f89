import SchemaStitch.Resolver.Composer

/-!
Running resolvers. The entries of a composition run in order on the call they share; each sees what
the entries before it have made, and the first failure ends the run.
-/
namespace SchemaStitch

/-- Lets the patcher of a composition, if it has one, answer for the results. -/
def Composer.patch (c : Composer) (call : Call) (results : Json) : Act (Except Failure Json) :=
  match c.patcher with
  | none => return .ok results
  | some p => do
    match ← p results with
    | .ok v => return .ok v
    | .error text => return .error (@Failure.patcher (.message text) p call results)

mutual

/-- Runs a resolver on a call. -/
def Resolver.invoke : Resolver → Call → Act (Except Failure Json)
  | .function _ handler, call => do
    match ← handler call with
    | .ok v => return .ok v
    | .error text => return .error (.message text)
  | .injected _ injectors inner, call => do
    inner.invoke (← injectors.foldlM (fun call inject => inject call) call)
  | .composed _ ⟨order, anchor, patcher, layer⟩, call => do
    let c : Composer := ⟨order, anchor, patcher, layer⟩
    match ← Resolver.invokeAll c call 0 none order with
    | .error e => return .error e
    | .ok results => c.patch call (results.getD .null)

/-- Runs the entries of a composition from an index on, after the results so far. -/
def Resolver.invokeAll (c : Composer) (call : Call) (index : Nat) (results : Option Json) :
    List Resolver → Act (Except Failure (Option Json))
  | [] => return .ok results
  | r :: rest => do
    let step := { call with accumulated := results }
    match ← r.invoke step with
    | .error e => return .error (.entry e c index step)
    | .ok v => Resolver.invokeAll c call (index + 1) (some (Json.combine results v)) rest

end

/-- Runs a composition on a call. -/
def Composer.run (c : Composer) (call : Call) : Act (Except Failure Json) := do
  match ← Resolver.invokeAll c call 0 none c.order with
  | .error e => return .error e
  | .ok results => c.patch call (results.getD .null)

/-- A resolver from a composition runs the composition. -/
theorem Resolver.invoke_composed (t : Tag) (c : Composer) (call : Call) :
    (Resolver.composed t c).invoke call = c.run call := rfl

end SchemaStitch
