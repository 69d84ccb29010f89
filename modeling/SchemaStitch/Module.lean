import SchemaStitch.Bundle.Basic

/-!
Modules: schema definitions read from a file, in all the forms in which they can be used.
-/
namespace SchemaStitch

open Sdl

/-- A text of schema definitions as it was read, without blanks around it, as a document and as a
bundle, with the resolvers that came with it. -/
structure SdlModule where
  document : Document
  bundle : Bundle
  sdl : String
  typeDefs : String
  resolvers : Option ResolverMap

namespace SdlModule

/-- The module of a text. -/
def ofText (text : String) (resolvers : Option ResolverMap) : Except StitchError SdlModule := do
  let b ← Bundle.ofSource (.sdl text)
  let b := match resolvers with
    | some map => b.setResolvers map
    | none => b
  return ⟨← b.document, b, b.sdl, text, resolvers⟩

/-- The last part of a path that is a name. Separators at the end and parts that stand for the
directory itself do not count; a part that leads upwards is no name. -/
def fileName? (path : String) : Option String :=
  let parts := (path.splitOn "/").filter fun p => p != "" && p != "."
  match parts.getLast? with
  | some ".." | none => none
  | some name => some name

/-- What follows the last point of a file name, unless the name has nothing before it. -/
def extension? (path : String) : Option String := do
  let name := (← fileName? path).toList
  let after := (name.reverse.takeWhile (· != '.')).reverse
  if after.length + 1 < name.length then some (String.ofList after) else none

/-- The module in a file, with a function that reads the bytes of the file at a path. The file must
have the extension of schema definitions and hold valid UTF-8. -/
def load {m : Type → Type} [Monad m] (read : String → m (Option ByteArray)) (path : String)
    (resolvers : Option ResolverMap) : m (Except StitchError SdlModule) := do
  if (extension? path).any sdlExtensions.contains then
    match (← read path).bind String.fromUTF8? with
    | some text => return ofText text resolvers
    | none => return .error (.unreadable path)
  else return .error (.unknownExtension path)

end SdlModule
end SchemaStitch
