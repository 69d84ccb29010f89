/-!
Decimals and binary64 numbers. A decimal is rounded to the nearest binary64 number, and of the
decimals that round to that number the one with the fewest digits is chosen, the nearest of those to
it. All arithmetic is exact.
-/
namespace SchemaStitch.Json

/-- The number `digits * 10 ^ exponent`. -/
structure Decimal where
  digits : Nat
  exponent : Int
  deriving DecidableEq, Inhabited, Repr

/-- The number `mantissa * 2 ^ exponent`. -/
structure Binary where
  mantissa : Nat
  exponent : Int
  deriving DecidableEq, Inhabited, Repr

namespace Binary

/-- The quotient of two numbers rounded to the nearest, a tie to the even neighbour. -/
def roundQuotient (num den : Nat) : Nat :=
  let q := num / den
  let r := num % den
  if 2 * r < den then q else if den < 2 * r then q + 1 else if q % 2 == 0 then q else q + 1

/-- Rounds `num / den` to 53 binary digits; exponents stop at that of the subnormal numbers. -/
def ofQuotient (num den : Nat) : Binary :=
  let scale (q : Int) : Nat × Nat :=
    if 0 ≤ q then (num, den * Nat.pow 2 q.toNat) else (num * Nat.pow 2 (-q).toNat, den)
  let guess : Int := (num.log2 : Int) - (den.log2 : Int) - 52
  let (n, d) := scale guess
  let guess := if n / d < Nat.pow 2 52 then guess - 1 else guess
  let q := max guess (-1074)
  let (n, d) := scale q
  let m := roundQuotient n d
  if m == Nat.pow 2 53 then ⟨Nat.pow 2 52, q + 1⟩ else ⟨m, q⟩

end Binary

namespace Decimal

/-- A decimal as a quotient of naturals. -/
def quotient (d : Decimal) : Nat × Nat :=
  if 0 ≤ d.exponent then (d.digits * Nat.pow 10 d.exponent.toNat, 1)
  else (d.digits, Nat.pow 10 (-d.exponent).toNat)

/-- The nearest binary64 number. -/
def toBinary (d : Decimal) : Binary :=
  let (n, m) := d.quotient
  Binary.ofQuotient n m

/-- Drops zeros at the end of the digits. -/
def normalize (fuel : Nat) (d : Decimal) : Decimal :=
  match fuel with
  | 0 => d
  | fuel + 1 =>
    if d.digits != 0 && d.digits % 10 == 0 then normalize fuel ⟨d.digits / 10, d.exponent + 1⟩
    else d

/-- How many decimal digits a natural has. -/
def width (n : Nat) : Nat := (Nat.toDigits 10 n).length

/-- The shortest decimal with at most `left` more digits than `count` that rounds to `b`: on each
grid of decimals with `count` digits the two neighbours of `b` are tried, the nearer first. -/
def search (b : Binary) (count left : Nat) : Decimal :=
  let (num, den) : Nat × Nat :=
    if 0 ≤ b.exponent then (b.mantissa * Nat.pow 2 b.exponent.toNat, 1)
    else (b.mantissa, Nat.pow 2 (-b.exponent).toNat)
  let magnitude : Int :=
    if den ≤ num then (width (num / den) : Int) else 1 - (width (den / num) : Int)
  let exponent : Int := magnitude - count
  let (n, d) : Nat × Nat :=
    if 0 ≤ exponent then (num, den * Nat.pow 10 exponent.toNat)
    else (num * Nat.pow 10 (-exponent).toNat, den)
  let below := n / d
  let nearer := Binary.roundQuotient n d
  let other := if nearer == below then below + 1 else below
  let fits (c : Nat) : Bool := (toBinary ⟨c, exponent⟩) == b
  if fits nearer then normalize 400 ⟨nearer, exponent⟩
  else if fits other then normalize 400 ⟨other, exponent⟩
  else match left with
    | 0 => normalize 400 ⟨nearer, exponent⟩
    | left + 1 => search b (count + 1) left

/-- The shortest decimal that rounds to the same binary64 number. -/
def shortest (d : Decimal) : Decimal :=
  let b := d.toBinary
  if b.mantissa == 0 then ⟨0, 0⟩ else search b 1 16

/-- The text of a decimal: positional with at least one decimal place while the point stands within
sixteen digits to the right of the first digit or five zeros to its left, else with an exponent that
has its sign. -/
def render (d : Decimal) : String :=
  let digits := Nat.toDigits 10 d.digits
  let len : Int := digits.length
  let point := len + d.exponent
  if d.digits == 0 then "0.0"
  else if 0 ≤ d.exponent && point ≤ 16 then
    String.ofList (digits ++ List.replicate d.exponent.toNat '0') ++ ".0"
  else if 0 < point && point ≤ 16 then
    String.ofList (digits.take point.toNat) ++ "." ++ String.ofList (digits.drop point.toNat)
  else if -5 < point && point ≤ 0 then
    "0." ++ String.ofList (List.replicate (-point).toNat '0' ++ digits)
  else
    let power := point - 1
    let head := String.ofList (digits.take 1)
    let tail := digits.drop 1
    let mantissa := if tail.isEmpty then head else head ++ "." ++ String.ofList tail
    mantissa ++ "e" ++ (if power < 0 then "-" else "+") ++ toString power.natAbs

end Decimal
end SchemaStitch.Json
