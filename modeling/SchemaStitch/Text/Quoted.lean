import SchemaStitch.Text.Unprintable

/-!
Text in double quotes as diagnostics show it. Quotes and backslashes are escaped, the common
controls have their short escapes, and what cannot be printed is shown by its number in braces.
-/
namespace SchemaStitch.Text

/-- A number in lower case hexadecimal digits. -/
def hex (n : Nat) : String := String.ofList (Nat.toDigits 16 n)

/-- The form of one character inside quotes. -/
def quotedChar (c : Char) : String :=
  if c == '"' then "\\\""
  else if c == '\\' then "\\\\"
  else if c == '\n' then "\\n"
  else if c == '\r' then "\\r"
  else if c == '\t' then "\\t"
  else if c.toNat == 0 then "\\0"
  else if isUnprintable c then "\\u\x7b" ++ hex c.toNat ++ "\x7d"
  else c.toString

/-- A text in quotes. -/
def quoted (s : String) : String := "\"" ++ String.join (s.toList.map quotedChar) ++ "\""

/-- Items on one line between brackets. -/
def listed (items : List String) : String := "[" ++ ", ".intercalate items ++ "]"

/-- Items on one line between braces. -/
def braced (items : List String) : String := "\x7b" ++ ", ".intercalate items ++ "\x7d"

/-- A named record with its fields on one line. -/
def record (name : String) (fields : List (String × String)) : String :=
  name ++ " \x7b " ++ ", ".intercalate (fields.map fun (f, v) => f ++ ": " ++ v) ++ " \x7d"

/-- An ordered table of quoted keys. -/
def table (rows : List (String × String)) : String :=
  braced (rows.map fun (k, v) => quoted k ++ ": " ++ v)

/-- An optional text. -/
def optional : Option String → String
  | none => "None"
  | some s => "Some(" ++ s ++ ")"

/-- A truth value. -/
def truth (b : Bool) : String := if b then "true" else "false"

end SchemaStitch.Text
