import SchemaStitch.Json.Basic

/-!
Reading JSON text. The fields of an object keep the order in which their names first appear, and the
last value of a name wins. Nesting is bounded by the length of the text, so reading is structural in
that bound.
-/
namespace SchemaStitch.Json

/-- Reads a value from the front of some characters and gives the rest. -/
abbrev Reader (α : Type) := List Char → Option (α × List Char)

namespace Reader

/-- Drops blanks. -/
def skip (cs : List Char) : List Char :=
  cs.dropWhile fun c => c == ' ' || c == '\n' || c == '\t' || c == '\r'

/-- The value of a hexadecimal digit. -/
def hexDigit? (c : Char) : Option Nat :=
  if '0' ≤ c && c ≤ '9' then some (c.toNat - 48)
  else if 'a' ≤ c && c ≤ 'f' then some (c.toNat - 87)
  else if 'A' ≤ c && c ≤ 'F' then some (c.toNat - 55)
  else none

/-- The value of four hexadecimal digits. -/
def unit? : Reader Nat
  | a :: b :: c :: d :: rest => do
    let a ← hexDigit? a
    let b ← hexDigit? b
    let c ← hexDigit? c
    let d ← hexDigit? d
    pure (((a * 16 + b) * 16 + c) * 16 + d, rest)
  | _ => none

/-- The character after the backslash and the letter u: one unit, or two that make a surrogate pair.
-/
def escaped? : Reader Char := fun cs => do
  let (high, rest) ← unit? cs
  if 0xD800 ≤ high && high < 0xDC00 then
    match rest with
    | '\\' :: 'u' :: rest => do
      let (low, rest) ← unit? rest
      if 0xDC00 ≤ low && low < 0xE000 then
        pure (Char.ofNat (0x10000 + (high - 0xD800) * 0x400 + (low - 0xDC00)), rest)
      else none
    | _ => none
  else if 0xDC00 ≤ high && high < 0xE000 then none
  else pure (Char.ofNat high, rest)

/-- The characters of a string after its opening quote, collected in reverse. -/
def stringTail (fuel : Nat) (acc : List Char) (cs : List Char) : Option (String × List Char) :=
  match fuel with
  | 0 => none
  | fuel + 1 =>
    match cs with
    | [] => none
    | '"' :: rest => some (String.ofList acc.reverse, rest)
    | '\\' :: 'u' :: rest =>
      match escaped? rest with
      | none => none
      | some (c, rest) => stringTail fuel (c :: acc) rest
    | '\\' :: c :: rest =>
      let plain : Option Char :=
        if c == '"' || c == '\\' || c == '/' then some c
        else if c == 'n' then some '\n'
        else if c == 'r' then some '\r'
        else if c == 't' then some '\t'
        else if c == 'b' then some '\x08'
        else if c == 'f' then some '\x0c'
        else none
      match plain with
      | none => none
      | some c => stringTail fuel (c :: acc) rest
    | c :: rest => if c.toNat < 0x20 then none else stringTail fuel (c :: acc) rest

/-- A string after its opening quote. -/
def string : Reader String := fun cs => stringTail (cs.length + 1) [] cs

/-- The natural number that digits spell. -/
def natOfDigits (cs : List Char) : Nat := cs.foldl (fun n c => n * 10 + (c.toNat - 48)) 0

/-- A number. -/
def number : Reader Number := fun cs => do
  let (negative, cs) := match cs with | '-' :: rest => (true, rest) | _ => (false, cs)
  let whole := cs.takeWhile Char.isDigit
  let cs := cs.dropWhile Char.isDigit
  if whole.isEmpty || (whole.length > 1 && whole.head? == some '0') then none else
  let (point, fraction, cs) := match cs with
    | '.' :: rest => (true, rest.takeWhile Char.isDigit, rest.dropWhile Char.isDigit)
    | _ => (false, [], cs)
  if point && fraction.isEmpty then none else
  let (mark, down, cs) : Bool × Bool × List Char := match cs with
    | 'e' :: '-' :: rest | 'E' :: '-' :: rest => (true, true, rest)
    | 'e' :: '+' :: rest | 'E' :: '+' :: rest => (true, false, rest)
    | 'e' :: rest | 'E' :: rest => (true, false, rest)
    | _ => (false, false, cs)
  let power := if mark then cs.takeWhile Char.isDigit else []
  let cs := if mark then cs.dropWhile Char.isDigit else cs
  if mark && power.isEmpty then none else
  let shift : Int := if down then -(natOfDigits power : Int) else natOfDigits power
  pure (Number.ofParts negative (!point && !mark) (natOfDigits (whole ++ fraction))
    (shift - fraction.length), cs)

/-- Items up to a closing bracket, after an item's place has been reached. -/
def items (item : Reader Json) (fuel : Nat) (acc : List Json) (cs : List Char) :
    Option (List Json × List Char) :=
  match fuel with
  | 0 => none
  | fuel + 1 =>
    match item cs with
    | none => none
    | some (v, cs) =>
      match skip cs with
      | ',' :: rest => items item fuel (v :: acc) rest
      | ']' :: rest => some ((v :: acc).reverse, rest)
      | _ => none

/-- Fields up to a closing brace, after a field's place has been reached. -/
def fields (item : Reader Json) (fuel : Nat) (acc : Fields) (cs : List Char) :
    Option (Fields × List Char) :=
  match fuel with
  | 0 => none
  | fuel + 1 =>
    match skip cs with
    | '"' :: rest =>
      match string rest with
      | none => none
      | some (key, cs) =>
        match skip cs with
        | ':' :: rest =>
          match item rest with
          | none => none
          | some (v, cs) =>
            let acc := acc.insert key v
            match skip cs with
            | ',' :: rest => fields item fuel acc rest
            | '\x7d' :: rest => some (acc, rest)
            | _ => none
        | _ => none
    | _ => none

/-- A value whose nesting is below `depth`. -/
def value : Nat → Reader Json
  | 0, _ => none
  | depth + 1, cs =>
    match skip cs with
    | 'n' :: 'u' :: 'l' :: 'l' :: rest => some (.null, rest)
    | 't' :: 'r' :: 'u' :: 'e' :: rest => some (.bool true, rest)
    | 'f' :: 'a' :: 'l' :: 's' :: 'e' :: rest => some (.bool false, rest)
    | '"' :: rest => (string rest).map fun (s, rest) => (.string s, rest)
    | '[' :: rest =>
      match skip rest with
      | ']' :: rest => some (.array [], rest)
      | _ => (items (value depth) (rest.length + 1) [] rest).map fun (vs, rest) => (.array vs, rest)
    | '\x7b' :: rest =>
      match skip rest with
      | '\x7d' :: rest => some (.object [], rest)
      | _ =>
        (fields (value depth) (rest.length + 1) [] rest).map fun (fs, rest) => (.object fs, rest)
    | cs => (number cs).map fun (n, rest) => (.number n, rest)

end Reader

/-- The value that a whole text spells. -/
def parse? (text : String) : Option Json :=
  let cs := text.toList
  match Reader.value (cs.length + 1) cs with
  | some (v, rest) => if (Reader.skip rest).isEmpty then some v else none
  | none => none

end SchemaStitch.Json
