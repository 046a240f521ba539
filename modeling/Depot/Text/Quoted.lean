import Depot.Text.Printable

/-!
The quoted form of a text inside messages. The quote is `'`, unless the text
has a `'` and no `"`. The backslash, the quote in use, the line feed, the
carriage return and the tab have short escapes; other hidden characters are
written by their code in lower-case hexadecimal.
-/
namespace Depot.Text

def hexDigits : Nat → Nat → List Char
  | 0, _ => []
  | width + 1, n => hexDigits width (n / 16) ++ [Nat.digitChar (n % 16)]

def quoteMark (cs : List Char) : Char :=
  if '\'' ∈ cs ∧ '"' ∉ cs then '"' else '\''

def escapeChar (mark c : Char) : List Char :=
  if c = mark ∨ c = '\\' then ['\\', c]
  else if c = '\n' then ['\\', 'n']
  else if c = '\r' then ['\\', 'r']
  else if c = '\t' then ['\\', 't']
  else if printable c then [c]
  else if c.toNat < 0x100 then '\\' :: 'x' :: hexDigits 2 c.toNat
  else if c.toNat < 0x10000 then '\\' :: 'u' :: hexDigits 4 c.toNat
  else '\\' :: 'U' :: hexDigits 8 c.toNat

def quoted (s : String) : String :=
  let mark := quoteMark s.toList
  String.ofList (mark :: s.toList.flatMap (escapeChar mark) ++ [mark])

def quotedCodes (units : List Nat) : String :=
  let mark := quoteMark (units.map Char.ofNat)
  String.ofList (mark :: (units.flatMap fun n =>
    if n.isValidChar then escapeChar mark (Char.ofNat n) else '\\' :: 'u' :: hexDigits 4 n)
      ++ [mark])

def quotedOrNone : Option String → String
  | some s => quoted s
  | none => "None"

end Depot.Text
