import SchemaStitch.ResolverMap.Walk

/-!
Why building, merging or paring bundles fails.
-/
namespace SchemaStitch

/-- The causes of failure. -/
inductive StitchError where
  | emptySource
  | invalidSdl
  | stumble (s : Stumble)
  | invalidPath (e : InvalidPath)
  | unknownExtension (path : String)
  | unreadable (path : String)
  | invalidConfig

/-- The extensions of files that hold schema definitions. -/
def sdlExtensions : List String := ["graphql", "gql", "sdl", "graphqls", "typedefs"]

/-- The text of a failure, where it does not come from outside. -/
def StitchError.text? : StitchError → Option String
  | .emptySource => some "cannot normalize an empty schema source"
  | .stumble s => some s.text
  | .invalidPath e => some e.text
  | .unknownExtension path =>
    some ("could not read SDL module '" ++ path ++ "': expected one of the extensions " ++
      ", ".intercalate (sdlExtensions.map ("." ++ ·)))
  | .invalidSdl | .unreadable _ | .invalidConfig => none

end SchemaStitch
