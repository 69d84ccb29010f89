import SchemaStitch.Json.Decimal

/-!
JSON numbers: integers of 64 bits, signed or unsigned, and everything else as a binary64 number that
is kept as the shortest decimal that reads back to it.
-/
namespace SchemaStitch.Json

/-- A number: an integer within 64 bits, or the shortest decimal of a binary64 number. -/
inductive Number where
  | integer (n : Int)
  | decimal (negative : Bool) (value : Decimal)
  deriving DecidableEq, Inhabited

namespace Number

/-- Whether an integer is kept exactly: it fits 64 bits with or without a sign. -/
def fits (n : Int) : Bool := Int64.minValue.toInt ≤ n && n < UInt64.size

/-- The number written as a sign, the digits before and after the point, and an exponent; `plain`
tells that there was neither a point nor an exponent. A negative zero is no integer. -/
def ofParts (negative plain : Bool) (digits : Nat) (exponent : Int) : Number :=
  let n : Int := if negative then -(digits : Int) else digits
  if plain && fits n && !(negative && digits == 0) then .integer n
  else .decimal negative (Decimal.shortest ⟨digits, exponent⟩)

/-- The text of a number. -/
def render : Number → String
  | .integer n => toString n
  | .decimal negative value => (if negative then "-" else "") ++ value.render

end Number
end SchemaStitch.Json
