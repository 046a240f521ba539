import Depot.Decimal.Shortest

/-!
How a double is written. Numbers from `1e-4` up to, and not including, `1e16`
are positional and keep a `.0`; all others have an exponent of at least two
digits with its sign.
-/
namespace Depot.Decimal

def digitsOf (n : Nat) : List Char := Nat.toDigits 10 n

def trim : Nat → Nat → Int → Nat × Int
  | 0, n, e => (n, e)
  | fuel + 1, n, e => if n ≠ 0 ∧ n % 10 = 0 then trim fuel (n / 10) (e + 1) else (n, e)

def zeros (n : Nat) : List Char := List.replicate n '0'

def positional (ds : List Char) (point : Int) : List Char :=
  if point ≤ 0 then '0' :: '.' :: zeros (-point).toNat ++ ds
  else if ds.length ≤ point.toNat then ds ++ zeros (point.toNat - ds.length) ++ ['.', '0']
  else ds.take point.toNat ++ '.' :: ds.drop point.toNat

def exponentText (e : Int) : List Char :=
  let ds := digitsOf e.natAbs
  (if e < 0 then '-' else '+') :: (if ds.length < 2 then '0' :: ds else ds)

def scientific (ds : List Char) (point : Int) : List Char :=
  let fraction := ds.drop 1
  ds.take 1 ++ (if fraction.isEmpty then [] else '.' :: fraction) ++ 'e' :: exponentText (point - 1)

def Scientific.text (d : Scientific) : List Char :=
  let (n, e) := trim 400 d.coefficient d.exponent
  let ds := digitsOf n
  let point := e + ds.length
  if -3 ≤ point ∧ point ≤ 16 then positional ds point else scientific ds point

def withSign (negative : Bool) (cs : List Char) : String :=
  String.ofList (if negative then '-' :: cs else cs)

def textOf (infinite undefined : String) (x : Float) : String :=
  match classify x with
  | .nan => undefined
  | .infinite negative => withSign negative infinite.toList
  | .zero negative => withSign negative ['0', '.', '0']
  | .finite negative b => withSign negative b.shortest.text

def floatText (x : Float) : String := textOf "inf" "nan" x

end Depot.Decimal
