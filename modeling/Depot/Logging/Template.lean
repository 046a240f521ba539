import Depot.Decimal.Whole
import Depot.Decimal.Reading
import Depot.Json.Quoted

/-!
Message templates. A mark stands for a value: `%s` for its text, `%r` for its
quoted form and `%d` for a whole number; `%%` is a percent sign. Flags, a width
and a precision may stand inside a mark. Every value is used exactly once, in
order. An object that is the only value may be used by its names instead.
-/
namespace Depot.Logging

/-- What stands between a percent sign and the letter of a mark, and that letter. -/
structure Mark where
  flags : List Char
  width : Nat
  precision : Option Nat
  kind : Char

namespace Mark

def take? (cs : List Char) : Option (Mark × List Char) :=
  let flags := cs.takeWhile "-+ #0".toList.contains
  let cs := cs.drop flags.length
  let width := cs.takeWhile Char.isDigit
  let cs := cs.drop width.length
  let (precision, cs) := match cs with
    | '.' :: rest =>
      (some (Decimal.natOfDigits (rest.takeWhile Char.isDigit)), rest.dropWhile Char.isDigit)
    | cs => (none, cs)
  let cs := if "hlL".toList.contains (cs.headD ' ') then cs.drop 1 else cs
  cs.head?.map fun kind => (⟨flags, Decimal.natOfDigits width, precision, kind⟩, cs.drop 1)

def has (m : Mark) (flag : Char) : Bool := m.flags.contains flag

def padded (m : Mark) (text : List Char) : List Char :=
  let gap := List.replicate (m.width - text.length) ' '
  if m.has '-' then text ++ gap else gap ++ text

def ofText (m : Mark) (text : String) : List Char :=
  m.padded ((m.precision.elim id List.take) text.toList)

def signOf (m : Mark) (n : Int) : List Char :=
  if n < 0 then ['-'] else if m.has '+' then ['+'] else if m.has ' ' then [' '] else []

def ofWhole (m : Mark) (n : Int) : List Char :=
  let sign := m.signOf n
  let least := (m.precision.getD 0).max
    (if m.has '0' && !m.has '-' then m.width - sign.length else 0)
  let digits := Nat.toDigits 10 n.natAbs
  m.padded (sign ++ List.replicate (least - digits.length) '0' ++ digits)

end Mark

def wholeValue? : Json → Option Int
  | .int n => some n
  | .bool b => some (if b then 1 else 0)
  | .float x => (Decimal.wholePart? x).map Prod.fst
  | _ => none

def filled? (m : Mark) (v : Json) : Option (List Char) :=
  if m.kind = 's' then some (m.ofText v.shown)
  else if m.kind = 'r' then some (m.ofText v.quoted)
  else if ['d', 'i', 'u'].contains m.kind then (wholeValue? v).map m.ofWhole
  else none

def takeName? : Nat → List Char → Option (List Char × List Char)
  | _, [] => none
  | depth, c :: rest =>
    if c = ')' then
      match depth with
      | 0 => some ([], rest)
      | depth + 1 => (takeName? depth rest).map fun r => (c :: r.1, r.2)
    else (takeName? (if c = '(' then depth + 1 else depth) rest).map fun r => (c :: r.1, r.2)

/-- A mark may begin with a name, which then replaces the values by its own. -/
def choose? (named : Option Json) (values : List Json) (cs : List Char) :
    Option (List Json × List Char) :=
  match cs with
  | '(' :: rest => do
    let (name, rest) ← takeName? 0 rest
    let v ← (← named).member? (String.ofList name)
    return ([v], rest)
  | cs => some (values, cs)

def fill? (named : Option Json) : Nat → List Char → List Json → Option (List Char)
  | 0, _, _ => none
  | _, [], values => if named.isSome || values.isEmpty then some [] else none
  | fuel + 1, '%' :: '%' :: rest, values => ('%' :: ·) <$> fill? named fuel rest values
  | fuel + 1, '%' :: rest, values => do
    let (values, rest) ← choose? named values rest
    let (mark, rest) ← Mark.take? rest
    let text ← filled? mark (← values.head?)
    (text ++ ·) <$> fill? named fuel rest (values.drop 1)
  | fuel + 1, c :: rest, values => (c :: ·) <$> fill? named fuel rest values

def message? (template : String) (values : List Json) : Option String :=
  let cs := template.toList
  let named := match values with
    | [.object (m :: members)] => some (.object (m :: members))
    | _ => none
  if values.isEmpty then some template
  else (fill? named (cs.length + 1) cs values).map String.ofList

end Depot.Logging
