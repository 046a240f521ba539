import Depot.Text.Quoted

/-!
Contents of files and messages: finite sequences of bytes.
-/
namespace Depot

abbrev Bytes := List UInt8

namespace Bytes

def hex (b : Bytes) : String :=
  String.ofList (b.flatMap fun x => Text.hexDigits 2 x.toNat)

def hexValue? (c : Char) : Option Nat :=
  if '0' ≤ c ∧ c ≤ '9' then some (c.toNat - '0'.toNat)
  else if 'a' ≤ c ∧ c ≤ 'f' then some (c.toNat - 'a'.toNat + 10)
  else if 'A' ≤ c ∧ c ≤ 'F' then some (c.toNat - 'A'.toNat + 10)
  else none

def ofHexDigits? : List Char → Option Bytes
  | [] => some []
  | hi :: lo :: rest => do
    let h ← hexValue? hi
    let l ← hexValue? lo
    return UInt8.ofNat (16 * h + l) :: (← ofHexDigits? rest)
  | [_] => none

def ofHex? (s : String) : Option Bytes := ofHexDigits? s.toList

def utf8 (s : String) : Bytes := s.toUTF8.toList

end Bytes

end Depot
