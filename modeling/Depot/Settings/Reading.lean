import Depot.Decimal.Reading
import Depot.Decimal.Text
import Depot.Decimal.Whole
import Depot.Fault
import Depot.Text.Blank
import Depot.Yaml.Value

/-!
Reading the values of a section. Numbers, truth values and texts are converted
where nothing is lost, and a section reports every value that it refuses.
-/
namespace Depot.Settings

open Text (Loose)
open Yaml (Value)

inductive Checked (α : Type)
  | ok (a : α)
  | refused (problems : List Problem)

namespace Checked

variable {α β : Type}

def map (f : α → β) : Checked α → Checked β
  | ok a => ok (f a)
  | refused ps => refused ps

def apply (f : Checked (α → β)) (x : Checked α) : Checked β :=
  match f, x with
  | ok f, ok a => ok (f a)
  | ok _, refused qs => refused qs
  | refused ps, ok _ => refused ps
  | refused ps, refused qs => refused (ps ++ qs)

instance : Applicative Checked where
  pure := ok
  seq f x := apply f (x ())
  map f x := map f x

def ofRefusal : Except Refusal α → Checked α
  | .ok a => ok a
  | .error r => refused [⟨[], r⟩]

def under (step : Step) : Checked α → Checked α
  | ok a => ok a
  | refused ps => refused (ps.map fun p => { p with place := step :: p.place })

end Checked

/-! ### Conversions -/

def wholeOf (x : Float) : Except Refusal Int :=
  match Decimal.wholePart? x with
  | none => .error .integerInfinite
  | some (_, false) => .error .integerFraction
  | some (n, true) => if Nat.pow 2 63 ≤ n.natAbs then .error .integerSize else .ok n

def gapsFine (cs : List Char) : Bool :=
  cs.head? ≠ some '_' && cs.getLast? ≠ some '_'
    && (cs.zip (cs.drop 1)).all fun p => p.1 ≠ '_' || p.2 ≠ '_'

def withoutGaps? (cs : List Char) : Option (List Char) :=
  if cs.contains '_' && gapsFine cs then some (cs.filter (· ≠ '_')) else none

/-- What follows the zero `zero` at the start of a number: zeros and underscores are
passed over up to another digit or a minus. One character stays before a point and
before the end. -/
def afterZeros? : Char → List Char → Option (List Char)
  | zero, [] => some [zero]
  | zero, c :: rest =>
    if c = '0' ∨ c = '_' then afterZeros? c rest
    else if c.isDigit ∨ c = '-' then some (c :: rest)
    else if c = '.' then some (zero :: c :: rest)
    else none

def withoutZeros? : List Char → Option (List Char)
  | '0' :: rest => afterZeros? '0' rest
  | c :: rest => if c.isDigit ∨ c = '-' then some (c :: rest) else none
  | [] => none

def withoutFraction (cs : List Char) : List Char :=
  let fraction := (cs.dropWhile (· ≠ '.')).drop 1
  if !fraction.isEmpty && fraction.all (· = '0') then cs.takeWhile (· ≠ '.') else cs

def lengthLimit : Nat := 4300

/-- Digits without leading zeros, and perhaps a minus before them. A run of digits that
is too long is refused whatever follows it. -/
def strictInt (cs : List Char) : Except Refusal Int :=
  let negative := cs.head? = some '-'
  let body := if negative then cs.drop 1 else cs
  let ds := body.takeWhile Char.isDigit
  let plain := ds.head? ≠ some '0'
  if plain && lengthLimit < ds.length + (if negative then 1 else 0) then .error .integerSize
  else if ds.isEmpty || ds.length < body.length || (!plain && 1 < ds.length) then
    .error .integerText
  else
    let n : Int := Decimal.natOfDigits ds
    .ok (if negative then -n else n)

def wholeText (s : String) : Except Refusal Int :=
  let cs := Text.trim s.toList
  match strictInt cs with
  | .error .integerText =>
    let positive := cs.head? = some '+'
    let unsigned := if positive then cs.drop 1 else cs
    if positive && unsigned.head? = some '-' then .error .integerText
    else
      match withoutZeros? unsigned with
      | none => .error .integerText
      | some cs =>
        let cs := withoutFraction cs
        strictInt ((withoutGaps? cs).getD cs)
  | r => r

def ofText {α : Type} (read : String → Except Refusal α) : Loose → Except Refusal α
  | .plain s => read s
  | .codes _ => .error .textCodes

def intOf : Value → Except Refusal Int
  | .int n => .ok n
  | .bool b => .ok (if b then 1 else 0)
  | .float x => wholeOf x
  | .text s => ofText wholeText s
  | _ => .error .integerType

def floatLiteral? (cs : List Char) : Option Float :=
  let (sign, body) := Decimal.takeSign cs
  let negative := sign = some true
  let word := String.ofList (body.map Char.toLower)
  if word = "inf" ∨ word = "infinity" then some (Decimal.signed negative (1.0 / 0.0))
  else if word = "nan" then some (0.0 / 0.0)
  else
    let (literal, rest) := Decimal.takeLiteral body
    if rest.isEmpty ∧ !(literal.whole.isEmpty && (literal.fraction.getD []).isEmpty) then
      some (Decimal.signed negative literal.toFloat)
    else none

def floatText (s : String) : Except Refusal Float :=
  let cs := s.toList
  match floatLiteral? (Text.trim cs) <|> (withoutGaps? cs).bind floatLiteral? with
  | some x => .ok x
  | none => .error .floatText

def floatOf : Value → Except Refusal Float
  | .int n =>
    let x := Decimal.ofInt n
    if x.isInf then .error .floatType else .ok x
  | .float x => .ok x
  | .bool b => .ok (if b then 1 else 0)
  | .text s => ofText floatText s
  | _ => .error .floatType

def boolOfInt (n : Int) : Except Refusal Bool :=
  if n = 0 then .ok false else if n = 1 then .ok true else .error .boolText

def boolText (s : String) : Except Refusal Bool :=
  let word := String.ofList (s.toList.map Char.toLower)
  if word ∈ ["0", "off", "f", "false", "n", "no"] then .ok false
  else if word ∈ ["1", "on", "t", "true", "y", "yes"] then .ok true
  else .error .boolText

def boolOf : Value → Except Refusal Bool
  | .bool b => .ok b
  | .int n => if -Int.pow 2 63 ≤ n ∧ n < Int.pow 2 63 then boolOfInt n else .error .boolType
  | .float x =>
    match wholeOf x with
    | .ok n => boolOfInt n
    | .error _ => .error .boolType
  | .text s => ofText boolText s
  | _ => .error .boolType

def textOf : Value → Except Refusal Loose
  | .text s => .ok s
  | _ => .error .textType

def atLeast (bound : Int) (v : Value) : Except Refusal Int := do
  let n ← intOf v
  if n < bound then .error .notAtLeast else return n

def positive (v : Value) : Except Refusal Float := do
  let x ← floatOf v
  if x ≤ 0 || x.isNaN then .error .notGreater else return x

def stepOf : Value → Step
  | .text s => .name s.lossy
  | .int n => if -Int.pow 2 63 ≤ n ∧ n < Int.pow 2 63 then .number n else .name (toString n)
  | .bool b => .number (if b then 1 else 0)
  | .null => .name "None"
  | .float x => .name (Decimal.floatText x)
  | .time t => .name t.text
  | _ => .name ""

def textEntry (e : Value × Value) : Checked (Loose × Loose) :=
  let step := stepOf e.1
  Prod.mk <$> ((Checked.ofRefusal (textOf e.1)).under (.name "[key]")).under step
    <*> (Checked.ofRefusal (textOf e.2)).under step

def textEntries : List (Value × Value) → Checked (List (Loose × Loose))
  | [] => pure []
  | e :: rest => List.cons <$> textEntry e <*> textEntries rest

def textMap : Value → Checked (List (Loose × Loose))
  | .mapping entries => textEntries entries
  | _ => .refused [⟨[], .mapType⟩]

/-! ### Sections -/

abbrev Entries := List (Value × Value)

def checkedField {α : Type} (entries : Entries) (name : String) (usual : α)
    (read : Value → Checked α) : Checked α :=
  match Value.lookup? name entries with
  | none => .ok usual
  | some v => (read v).under (.name name)

def field {α : Type} (entries : Entries) (name : String) (usual : α)
    (read : Value → Except Refusal α) : Checked α :=
  checkedField entries name usual fun v => .ofRefusal (read v)

def sectionOf (entries : Entries) (name : String) : Entries :=
  match Value.lookup? name entries with
  | some (.mapping l) => l
  | _ => []

def settle {α : Type} (name : String) (entries : Entries) (read : Entries → Checked α) :
    Except Fault α :=
  if entries.all fun e => match e.1 with
      | .text _ => true
      | _ => false then
    match read entries with
    | .ok a => .ok a
    | .refused problems => .error (.invalidSettings name problems)
  else .error .wrongType

end Depot.Settings
