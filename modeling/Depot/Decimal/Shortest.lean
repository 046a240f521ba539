/-!
The shortest decimal that reads back as a given binary number, and of those
the nearest. A finite number is `mantissa * 2 ^ exponent`; the reals that round
to it form an interval, and the search tries grids of one, two, … digits until
a neighbour of the number on the grid lies in the interval.
-/
namespace Depot.Decimal

structure Scientific where
  coefficient : Nat
  exponent : Int
  deriving DecidableEq, Repr

structure Ratio where
  num : Nat
  den : Nat

namespace Ratio

def le (a b : Ratio) : Bool := a.num * b.den ≤ b.num * a.den

def lt (a b : Ratio) : Bool := a.num * b.den < b.num * a.den

def scaled (n base : Nat) (e : Int) : Ratio :=
  if 0 ≤ e then ⟨n * base.pow e.toNat, 1⟩ else ⟨n, base.pow (-e).toNat⟩

def gap (a b : Ratio) : Ratio :=
  ⟨max (a.num * b.den) (b.num * a.den) - min (a.num * b.den) (b.num * a.den), a.den * b.den⟩

end Ratio

/-- A positive binary number `mantissa * 2 ^ exponent`; `narrow` says that the
gap below it is half the gap above it. -/
structure Binary where
  mantissa : Nat
  exponent : Int
  narrow : Bool

namespace Binary

def value (b : Binary) : Ratio := .scaled b.mantissa 2 b.exponent

def low (b : Binary) : Ratio :=
  .scaled (4 * b.mantissa - (if b.narrow then 1 else 2)) 2 (b.exponent - 2)

def high (b : Binary) : Ratio := .scaled (4 * b.mantissa + 2) 2 (b.exponent - 2)

def holds (b : Binary) (r : Ratio) : Bool :=
  if b.mantissa % 2 = 0 then b.low.le r && r.le b.high else b.low.lt r && r.lt b.high

end Binary

def magnitudeFrom (r : Ratio) : Nat → Int → Int
  | 0, e => e
  | fuel + 1, e =>
    if r.lt (.scaled 1 10 e) then magnitudeFrom r fuel (e - 1)
    else if (Ratio.scaled 1 10 (e + 1)).le r then magnitudeFrom r fuel (e + 1)
    else e

def magnitude (r : Ratio) : Int :=
  magnitudeFrom r 700 (((r.num.log2 : Int) - r.den.log2) * 3 / 10)

/-- The neighbours of the number on the grid of `10 ^ e`, nearest first; of two
equally near ones the even one. -/
def neighbours (b : Binary) (e : Int) : List Scientific :=
  let v := b.value
  let step := Ratio.scaled 1 10 e
  let below := v.num * step.den / (v.den * step.num)
  let lower : Scientific := ⟨below, e⟩
  let upper : Scientific := ⟨below + 1, e⟩
  let toLower := v.gap (.scaled below 10 e)
  let toUpper := v.gap (.scaled (below + 1) 10 e)
  if toLower.lt toUpper then [lower, upper]
  else if toUpper.lt toLower then [upper, lower]
  else if below % 2 = 0 then [lower, upper]
  else [upper, lower]

def search (b : Binary) (top : Int) : Nat → Nat → Scientific
  | 0, _ => ⟨b.mantissa, 0⟩
  | fuel + 1, digits =>
    let near := neighbours b (top - (digits : Int) + 1)
    match near.find? fun d => b.holds (.scaled d.coefficient 10 d.exponent) with
    | some d => d
    | none => search b top fuel (digits + 1)

def Binary.shortest (b : Binary) : Scientific := search b (magnitude b.value) 17 1

inductive Class
  | nan
  | infinite (negative : Bool)
  | zero (negative : Bool)
  | finite (negative : Bool) (magnitude : Binary)

def classify (x : Float) : Class :=
  let bits : Nat := x.toBits.toNat
  let negative : Bool := bits / Nat.pow 2 63 = 1
  let field : Nat := bits / Nat.pow 2 52 % Nat.pow 2 11
  let fraction : Nat := bits % Nat.pow 2 52
  if field = 2047 then
    if fraction = 0 then .infinite negative else .nan
  else if field = 0 then
    if fraction = 0 then .zero negative else .finite negative ⟨fraction, -1074, false⟩
  else .finite negative ⟨Nat.pow 2 52 + fraction, (field : Int) - 1075, fraction = 0 && 1 < field⟩

end Depot.Decimal
