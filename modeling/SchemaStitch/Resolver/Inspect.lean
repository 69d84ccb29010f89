import SchemaStitch.Resolver.Composer
import SchemaStitch.Text.Quoted

/-!
Texts of resolvers in diagnostics: plain resolvers by their label, compositions by their entries.
-/
namespace SchemaStitch

/-- The text of a composition with the given texts of its entries. -/
def Composer.inspectWith (c : Composer) (entries : List String) : String :=
  Text.record "ExtendedResolver"
    [("order", Text.listed entries),
      ("original", Text.optional (c.anchorIndex.map fun i => toString i)),
      ("patched", Text.truth c.patcher.isSome), ("merge_layer", Text.truth c.mergeLayer)]

mutual

/-- The text of a resolver. -/
def Resolver.inspect : Resolver → String
  | .function t _ => "Resolver(" ++ t.label.getD "<fn>" ++ ")"
  | .injected _ injectors inner =>
    Text.record "Injected"
      [("injectors", toString injectors.length), ("resolver", inner.inspect)]
  | .composed _ ⟨order, anchor, patcher, layer⟩ =>
    Composer.inspectWith ⟨order, anchor, patcher, layer⟩ (Resolver.inspectAll order)

/-- The texts of resolvers. -/
def Resolver.inspectAll : List Resolver → List String
  | [] => []
  | r :: rest => r.inspect :: Resolver.inspectAll rest

end

/-- The text of a composition. -/
def Composer.inspect (c : Composer) : String := c.inspectWith (Resolver.inspectAll c.order)

end SchemaStitch
