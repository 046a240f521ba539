import Depot.Bytes
import Depot.Decimal.Reading
import Depot.Json.Parser
import Depot.Yaml.Value

/-!
What an unquoted scalar stands for. Words for nothing and for truth values come
in lower case, capitalized and upper case. Whole numbers may be binary, octal
with a leading zero, hexadecimal, or in base sixty with colons; doubles need a
point, and a sign in their exponent. Underscores may stand among digits. Dates
are values too. All else is text. A number or a date that has the right form may
still be refused.
-/
namespace Depot.Yaml.Scalar

def spellings (word : String) : List String := [word, word.capitalize, word.toUpper]

def isOne (words : List String) (s : String) : Bool := (words.flatMap spellings).contains s

def word? (s : String) : Option Value :=
  if s = "" || s = "~" || isOne ["null"] s then some .null
  else if isOne ["yes", "true", "on"] s then some (.bool true)
  else if isOne ["no", "false", "off"] s then some (.bool false)
  else none

def plainDigits (cs : List Char) : List Char := cs.filter (· ≠ '_')

def isDigitOrGap (c : Char) : Bool := c.isDigit || c = '_'

/-- Digits of a base, with underscores among them. Underscores alone have the form of a
number, but are none. -/
def inBase? (base : Nat) (cs : List Char) : Option (Except Fault Nat) :=
  let ds := plainDigits cs
  if cs.isEmpty then none
  else if ds.isEmpty then some (.error (.noDigits base))
  else
    (ds.foldlM (fun n c => do
      let d ← Bytes.hexValue? c
      if d < base then some (base * n + d) else none) 0).map .ok

def decimal? (ds : List Char) : Except Fault Nat :=
  if Json.digitLimit < ds.length then .error (.tooManyDigits ds.length)
  else .ok (Decimal.natOfDigits ds)

/-- Whether something is a further part of a number in base sixty: one digit, or two
below sixty. -/
def isSixtieth : List Char → Bool
  | [a] => a.isDigit
  | [a, b] => '0' ≤ a && a ≤ '5' && b.isDigit
  | _ => false

def startsNonzero : List Char → Bool
  | c :: _ => '1' ≤ c && c ≤ '9'
  | [] => false

def natural? (cs : List Char) : Option (Except Fault Nat) :=
  match cs with
  | ['0'] => some (.ok 0)
  | '0' :: 'b' :: rest => inBase? 2 rest
  | '0' :: 'x' :: rest => inBase? 16 rest
  | '0' :: rest => if (plainDigits rest).isEmpty then some (.ok 0) else inBase? 8 rest
  | _ =>
    if !startsNonzero cs then none
    else
      match cs.splitOn ':' with
      | first :: parts =>
        if first.all isDigitOrGap && parts.all isSixtieth then
          some ((decimal? (plainDigits first)).map fun n =>
            parts.foldl (fun n part => 60 * n + Decimal.natOfDigits part) n)
        else none
      | [] => none

def literalFloat (cs : List Char) : Float := (Decimal.takeLiteral (plainDigits cs)).1.toFloat

def pointed? (cs : List Char) : Option Float :=
  let body := cs.takeWhile fun c => isDigitOrGap c || c = '.'
  let rest := cs.dropWhile fun c => isDigitOrGap c || c = '.'
  let startsWell := match body with
    | c :: d :: _ => c.isDigit || (c = '.' && d.isDigit)
    | _ => false
  let exponentFine := match rest with
    | [] => true
    | e :: sign :: c :: ds =>
      (e = 'e' || e = 'E') && (sign = '+' || sign = '-') && (c :: ds).all Char.isDigit
    | _ => false
  if startsWell && body.count '.' = 1 && exponentFine then some (literalFloat cs) else none

/-- The sum of the parts of a number in base sixty from the last one on, in doubles. No
double is as large as the weight of a part too far ahead. -/
def sumSixties : Nat → Float → List Float → Except Fault Float
  | _, sum, [] => .ok sum
  | weight, sum, part :: further =>
    let w := Decimal.ofInt weight
    if w.isInf then .error .outOfRange
    else sumSixties (60 * weight) (sum + part * w) further

def pointedSixty? (cs : List Char) : Option (Except Fault Float) :=
  match cs.splitOn ':' with
  | first :: parts =>
    match parts.reverse with
    | last :: middle =>
      let whole := last.takeWhile (· ≠ '.')
      let fraction := last.dropWhile (· ≠ '.')
      if first.all isDigitOrGap && (first.head?.any Char.isDigit) && middle.all isSixtieth
          && isSixtieth whole && !fraction.isEmpty && (fraction.drop 1).all isDigitOrGap then
        some (sumSixties 1 0 ((last :: middle ++ [first]).map literalFloat))
      else none
    | [] => none
  | [] => none

def infinite? (cs : List Char) : Option Float :=
  if ["inf", "Inf", "INF"].any fun w => cs = '.' :: w.toList then some (1.0 / 0.0) else none

def undefined? (cs : List Char) : Option Float :=
  if ["nan", "NaN", "NAN"].any fun w => cs = '.' :: w.toList then some (0.0 / 0.0) else none

def int? (cs : List Char) : Option (Except Fault Int) :=
  let (sign, body) := Decimal.takeSign cs
  (natural? body).map fun r => r.map fun n => if sign = some true then -(n : Int) else n

def float? (cs : List Char) : Option (Except Fault Float) :=
  let (sign, body) := Decimal.takeSign cs
  let signed := if sign.isSome && body.head? = some '.' then none else pointed? body
  let found := signed.map .ok <|> pointedSixty? body <|> (infinite? body).map .ok
  found.map (·.map (Decimal.signed (sign = some true))) <|> (undefined? cs).map .ok

def timestamp? (cs : List Char) : Option (Except Fault Timestamp) :=
  (Timestamp.read? cs).map fun w => (Timestamp.ofWritten? w).mapError .misfit

def value? (s : String) : Except Fault Value :=
  let cs := s.toList
  if s = "=" ∨ s = "<<" then .error .badMarkup
  else if let some v := word? s then .ok v
  else if let some r := int? cs then r.map .int
  else if let some r := float? cs then r.map .float
  else if let some r := timestamp? cs then r.map .time
  else .ok (.text s)

end Depot.Yaml.Scalar
