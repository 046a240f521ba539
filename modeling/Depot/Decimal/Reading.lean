/-!
Decimal literals: an optional sign, digits, an optional fraction and an optional
exponent, read as the nearest double.
-/
namespace Depot.Decimal

def digitValue (c : Char) : Nat := c.toNat - '0'.toNat

def natOfDigits (ds : List Char) : Nat := ds.foldl (fun n c => 10 * n + digitValue c) 0

/-- The nearest double to `coefficient * 10 ^ exponent`; exponents far outside
the range of a double are settled without computing the power. -/
def toFloat (coefficient : Nat) (exponent : Int) : Float :=
  let size := (Nat.toDigits 10 coefficient).length
  if coefficient = 0 then 0
  else if 400 < exponent + size then 1.0 / 0.0
  else if exponent + size < -400 then 0
  else if 0 ≤ exponent then Float.ofScientific coefficient false exponent.toNat
  else Float.ofScientific coefficient true (-exponent).toNat

structure Literal where
  whole : List Char
  fraction : Option (List Char)
  exponent : Option Int
  deriving DecidableEq, Repr

namespace Literal

def toFloat (l : Literal) : Float :=
  let fraction := l.fraction.getD []
  Decimal.toFloat (natOfDigits (l.whole ++ fraction)) (l.exponent.getD 0 - fraction.length)

end Literal

def takeSign : List Char → Option Bool × List Char
  | '+' :: rest => (some false, rest)
  | '-' :: rest => (some true, rest)
  | cs => (none, cs)

def takeExponent : List Char → Option Int × List Char
  | c :: rest =>
    if c = 'e' ∨ c = 'E' then
      let (sign, after) := takeSign rest
      let ds := after.takeWhile Char.isDigit
      if ds.isEmpty then (none, c :: rest)
      else
        let n : Int := natOfDigits ds
        (some (if sign = some true then -n else n), after.dropWhile Char.isDigit)
    else (none, c :: rest)
  | [] => (none, [])

def takeLiteral (cs : List Char) : Literal × List Char :=
  let whole := cs.takeWhile Char.isDigit
  let rest := cs.dropWhile Char.isDigit
  let (fraction, rest) : Option (List Char) × List Char :=
    match rest with
    | '.' :: after => (some (after.takeWhile Char.isDigit), after.dropWhile Char.isDigit)
    | _ => (none, rest)
  let (exponent, rest) := takeExponent rest
  (⟨whole, fraction, exponent⟩, rest)

def signed (negative : Bool) (x : Float) : Float := if negative then -x else x

def ofInt (n : Int) : Float := signed (n < 0) (toFloat n.natAbs 0)

end Depot.Decimal
