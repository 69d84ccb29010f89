/-!
Lexemes of the schema definition language. Blanks, line ends, commas, byte order marks and comments
stand between lexemes and are dropped; strings are decoded.
-/
namespace SchemaStitch.Sdl

/-- A lexeme. Numbers keep their text and strings are held as their value. -/
inductive Token where
  | punctuator (c : Char)
  | spread
  | name (text : String)
  | int (text : String)
  | float (text : String)
  | string (value : String)
  deriving DecidableEq, Inhabited

namespace Token

/-- Characters that stand between lexemes. -/
def isIgnored (c : Char) : Bool :=
  c == ' ' || c == '\t' || c == '\n' || c == '\r' || c == ',' || c.toNat == 0xFEFF

/-- Characters that end a line. -/
def isLineEnd (c : Char) : Bool := c == '\n' || c == '\r'

/-- Characters that are lexemes of their own. -/
def isPunctuator (c : Char) : Bool :=
  ['!', '$', '&', '(', ')', ':', '=', '@', '[', ']', '\x7b', '|', '\x7d'].contains c

/-- Characters that can start a name. Names are ASCII. -/
def isNameStart (c : Char) : Bool := c.isAlpha || c == '_'

/-- Characters that can continue a name. -/
def isNamePart (c : Char) : Bool := c.isAlphanum || c == '_'

/-- The value of a hexadecimal digit. -/
def hexDigit? (c : Char) : Option Nat :=
  if '0' ≤ c && c ≤ '9' then some (c.toNat - 48)
  else if 'a' ≤ c && c ≤ 'f' then some (c.toNat - 87)
  else if 'A' ≤ c && c ≤ 'F' then some (c.toNat - 55)
  else none

/-- The character that four hexadecimal digits number; halves of surrogate pairs are refused. -/
def escapedChar? (a b c d : Char) : Option Char := do
  let n := (((← hexDigit? a) * 16 + (← hexDigit? b)) * 16 + (← hexDigit? c)) * 16 + (← hexDigit? d)
  if 0xD800 ≤ n && n < 0xE000 then none else some (Char.ofNat n)

/-- The character that a backslash and a letter stand for. -/
def simpleEscape? (c : Char) : Option Char :=
  if c == '"' || c == '\\' || c == '/' then some c
  else if c == 'b' then some '\x08'
  else if c == 'f' then some '\x0c'
  else if c == 'n' then some '\n'
  else if c == 'r' then some '\r'
  else if c == 't' then some '\t'
  else none

/-- The value of a string after its opening quote, and what follows its closing quote. -/
def quotedTail (acc : List Char) : List Char → Option (String × List Char)
  | [] => none
  | '"' :: rest => some (String.ofList acc.reverse, rest)
  | '\\' :: 'u' :: a :: b :: c :: d :: rest =>
    match escapedChar? a b c d with
    | none => none
    | some x => quotedTail (x :: acc) rest
  | '\\' :: c :: rest =>
    match simpleEscape? c with
    | none => none
    | some x => quotedTail (x :: acc) rest
  | c :: rest => if isLineEnd c || c == '\\' then none else quotedTail (c :: acc) rest

/-- The raw characters of a block string after its opening quotes, and what follows its closing
quotes. -/
def blockTail (acc : List Char) : List Char → Option (List Char × List Char)
  | [] => none
  | '\\' :: '"' :: '"' :: '"' :: rest => blockTail ('"' :: '"' :: '"' :: acc) rest
  | '"' :: '"' :: '"' :: rest => some (acc.reverse, rest)
  | c :: rest => blockTail (c :: acc) rest

/-- Splits characters at line ends; a carriage return and a line feed after it are one line end. -/
def lines : List Char → List (List Char)
  | [] => [[]]
  | '\r' :: '\n' :: rest => [] :: lines rest
  | c :: rest =>
    if isLineEnd c then [] :: lines rest
    else match lines rest with
      | [] => [[c]]
      | line :: more => (c :: line) :: more

/-- Blanks that indent a line. -/
def isIndent (c : Char) : Bool := c == ' ' || c == '\t'

/-- How many blanks start a line, if it holds anything else. -/
def indentOf? (line : List Char) : Option Nat :=
  let rest := line.dropWhile isIndent
  if rest.isEmpty then none else some (line.length - rest.length)

/-- Drops blank lines at the front. -/
def dropBlankLines (ls : List (List Char)) : List (List Char) :=
  ls.dropWhile fun l => l.all isIndent

/-- The value of a block string: the indentation common to all lines but the first is dropped, then
the blank lines at both ends. -/
def blockValue (raw : List Char) : String :=
  match lines raw with
  | [] => ""
  | first :: rest =>
    let common := (rest.filterMap indentOf?).foldl
      (fun least n => match least with | none => some n | some m => some (min m n)) none
    let rest := match common with
      | none => rest
      | some n => rest.map (·.drop n)
    let kept := (dropBlankLines (dropBlankLines (first :: rest)).reverse).reverse
    String.ofList (List.intercalate ['\n'] kept)

/-- A number at the front of some characters, and what follows it. No digit stands before a leading
zero's successor, and neither a letter nor a point may follow the number. -/
def number? (cs : List Char) : Option (Token × List Char) :=
  let (sign, cs) := match cs with | '-' :: rest => (['-'], rest) | _ => ([], cs)
  let whole := cs.takeWhile Char.isDigit
  let cs := cs.dropWhile Char.isDigit
  if whole.isEmpty || (whole.length > 1 && whole.head? == some '0') then none else
  let (point, cs) := match cs with
    | '.' :: rest => (some (rest.takeWhile Char.isDigit), rest.dropWhile Char.isDigit)
    | _ => (none, cs)
  if point == some [] then none else
  let (power, cs) := match cs with
    | e :: s :: rest =>
      if (e == 'e' || e == 'E') && (s == '+' || s == '-') then
        (some ([e, s], rest.takeWhile Char.isDigit), rest.dropWhile Char.isDigit)
      else if e == 'e' || e == 'E' then
        (some ([e], (s :: rest).takeWhile Char.isDigit), (s :: rest).dropWhile Char.isDigit)
      else (none, cs)
    | [e] => if e == 'e' || e == 'E' then (some ([e], []), []) else (none, cs)
    | [] => (none, cs)
  if (power.map (·.2)) == some [] then none else
  let follows := match cs with
    | c :: _ => isNameStart c || c == '.'
    | [] => false
  if follows then none else
  let text := sign ++ whole ++ (match point with | some d => '.' :: d | none => []) ++
    (match power with | some (m, d) => m ++ d | none => [])
  if point.isSome || power.isSome then some (.float (String.ofList text), cs)
  else some (.int (String.ofList text), cs)

/-- The lexeme at the front of some characters, which is not ignored, and what follows it. -/
def next? : List Char → Option (Token × List Char)
  | '"' :: '"' :: '"' :: rest =>
    match blockTail [] rest with
    | none => none
    | some (raw, rest) => some (.string (blockValue raw), rest)
  | '"' :: rest => (quotedTail [] rest).map fun (s, rest) => (.string s, rest)
  | '.' :: '.' :: '.' :: rest => some (.spread, rest)
  | [] => none
  | c :: rest =>
    if isPunctuator c then some (.punctuator c, rest)
    else if isNameStart c then
      some (.name (String.ofList (c :: rest.takeWhile isNamePart)), rest.dropWhile isNamePart)
    else if c == '-' || c.isDigit then number? (c :: rest)
    else none

/-- The lexemes of some characters; each round drops at least one character. -/
def scanFrom : Nat → List Token → List Char → Option (List Token)
  | 0, _, _ => none
  | _ + 1, acc, [] => some acc.reverse
  | fuel + 1, acc, c :: rest =>
    if isIgnored c then scanFrom fuel acc rest
    else if c == '#' then scanFrom fuel acc (rest.dropWhile fun c => !isLineEnd c)
    else match next? (c :: rest) with
      | none => none
      | some (t, rest) => scanFrom fuel (t :: acc) rest

/-- The lexemes of a text, if all of it can be read. -/
def scan? (text : String) : Option (List Token) :=
  let cs := text.toList
  scanFrom (cs.length + 1) [] cs

end Token
end SchemaStitch.Sdl
