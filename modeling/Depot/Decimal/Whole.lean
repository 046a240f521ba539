import Depot.Decimal.Shortest

/-!
The whole numbers in and near a double.
-/
namespace Depot.Decimal

namespace Binary

def whole (b : Binary) : Nat :=
  if 0 ≤ b.exponent then b.mantissa * Nat.pow 2 b.exponent.toNat
  else b.mantissa / Nat.pow 2 (-b.exponent).toNat

def rest (b : Binary) : Nat :=
  if 0 ≤ b.exponent then 0 else b.mantissa % Nat.pow 2 (-b.exponent).toNat

end Binary

def wholePart? (x : Float) : Option (Int × Bool) :=
  match classify x with
  | .zero _ => some (0, true)
  | .finite negative b => some (if negative then -(b.whole : Int) else b.whole, b.rest = 0)
  | _ => none

def exactWhole? (x : Float) : Option Int :=
  match wholePart? x with
  | some (n, true) => some n
  | _ => none

def floor? (x : Float) : Option Int :=
  match classify x with
  | .zero _ => some 0
  | .finite false b => some b.whole
  | .finite true b => some (if b.rest = 0 then -(b.whole : Int) else -(b.whole : Int) - 1)
  | _ => none

def nearestQuotient (n d : Nat) : Nat :=
  let twice := 2 * (n % d)
  if twice < d then n / d
  else if d < twice then n / d + 1
  else n / d + n / d % 2

/-- The whole number nearest to the double nearest to `n / 2 ^ k`. A double has 53 digits. -/
def nearestRounded (n k : Nat) : Nat :=
  let cut := Nat.pow 2 (n.log2 - 52)
  nearestQuotient (nearestQuotient n cut * cut) (Nat.pow 2 k)

/-- A double in units of which `unit` make one: the whole part exactly, and the fraction times
`unit`, as a double, to the nearest. -/
def inUnits? (unit : Nat) (x : Float) : Option Int :=
  match classify x with
  | .zero _ => some 0
  | .finite negative b =>
    let n := unit * b.whole + nearestRounded (unit * b.rest) (-b.exponent).toNat
    some (if negative then -(n : Int) else n)
  | _ => none

end Depot.Decimal
