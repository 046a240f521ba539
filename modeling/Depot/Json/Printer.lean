import Depot.Json.Value
import Depot.Text.Quoted
import Depot.Decimal.Text

/-!
JSON text in ASCII. Members and items are separated by a comma and a space, a
name and its value by a colon and a space. The quote, the backslash and the
controls are escaped; a character beyond ASCII becomes one escaped UTF-16 unit
or two. A name that is no text is written as the text of its value. A whole number
of too many digits has no text.
-/
namespace Depot.Json

def escapeUnit (n : Nat) : List Char := '\\' :: 'u' :: Text.hexDigits 4 n

def escapeChar (c : Char) : List Char :=
  if c = '"' then ['\\', '"']
  else if c = '\\' then ['\\', '\\']
  else if c = '\n' then ['\\', 'n']
  else if c = '\r' then ['\\', 'r']
  else if c = '\t' then ['\\', 't']
  else if c = '\x08' then ['\\', 'b']
  else if c = '\x0c' then ['\\', 'f']
  else if 0x20 ≤ c.toNat ∧ c.toNat < 0x7F then [c]
  else if c.toNat < 0x10000 then escapeUnit c.toNat
  else
    escapeUnit (0xD800 + (c.toNat - 0x10000) / 0x400)
      ++ escapeUnit (0xDC00 + (c.toNat - 0x10000) % 0x400)

def stringChars (cs : List Char) : List Char := '"' :: cs.flatMap escapeChar ++ ['"']

def escapeCode (n : Nat) : List Char :=
  if n.isValidChar then escapeChar (Char.ofNat n) else escapeUnit n

def codeChars (units : List Nat) : List Char := '"' :: units.flatMap escapeCode ++ ['"']

def intChars (n : Int) : List Char :=
  if n < 0 then '-' :: Nat.toDigits 10 n.natAbs else Nat.toDigits 10 n.natAbs

def floatChars (x : Float) : List Char := (Decimal.textOf "Infinity" "NaN" x).toList

def nameChars : Json → List Char
  | .text s => stringChars s.toList
  | .codes units => codeChars units
  | .int n => '"' :: intChars n ++ ['"']
  | .float x => '"' :: floatChars x ++ ['"']
  | .bool b => if b then "\"true\"".toList else "\"false\"".toList
  | _ => "\"null\"".toList

mutual

def chars : Json → List Char
  | .null => ['n', 'u', 'l', 'l']
  | .bool true => ['t', 'r', 'u', 'e']
  | .bool false => ['f', 'a', 'l', 's', 'e']
  | .int n => intChars n
  | .float x => floatChars x
  | .text s => stringChars s.toList
  | .codes units => codeChars units
  | .list items => '[' :: itemChars items ++ [']']
  | .object members => '{' :: memberChars members ++ ['}']
  | .table entries => '{' :: entryChars entries ++ ['}']

def itemChars : List Json → List Char
  | [] => []
  | [v] => chars v
  | v :: rest => chars v ++ ',' :: ' ' :: itemChars rest

def memberChars : List (String × Json) → List Char
  | [] => []
  | [(k, v)] => stringChars k.toList ++ ':' :: ' ' :: chars v
  | (k, v) :: rest =>
    stringChars k.toList ++ ':' :: ' ' :: chars v ++ ',' :: ' ' :: memberChars rest

def entryChars : List (Json × Json) → List Char
  | [] => []
  | [(k, v)] => nameChars k ++ ':' :: ' ' :: chars v
  | (k, v) :: rest => nameChars k ++ ':' :: ' ' :: chars v ++ ',' :: ' ' :: entryChars rest

end

def render (v : Json) : String := String.ofList (chars v)

mutual

def writable : Json → Bool
  | .int n => (Nat.toDigits 10 n.natAbs).length ≤ digitLimit
  | .list items => itemsWritable items
  | .object members => membersWritable members
  | .table entries => entriesWritable entries
  | _ => true

def itemsWritable : List Json → Bool
  | [] => true
  | v :: rest => writable v && itemsWritable rest

def membersWritable : List (String × Json) → Bool
  | [] => true
  | (_, v) :: rest => writable v && membersWritable rest

def entriesWritable : List (Json × Json) → Bool
  | [] => true
  | (k, v) :: rest => writable k && writable v && entriesWritable rest

end

def render? (v : Json) : Option String := if v.writable then some v.render else none

end Depot.Json
