import Depot.Bytes

/-!
Text encodings. UTF-8 and little-endian UTF-16 cover every text; Latin-1 and
ASCII cover the code points below 256 and 128.
-/
namespace Depot.Text

inductive Codec
  | utf8
  | utf16le
  | latin1
  | ascii
  deriving DecidableEq, Repr

namespace Codec

/-- Letters, digits and points of a name; one underscore stands for whatever else is
between two of them. -/
def nameChars (pending : Bool) (first : Bool) : List Char → List Char
  | [] => []
  | c :: rest =>
    if c.isAlphanum || c = '.' then
      let tail := c.toLower :: nameChars false false rest
      if pending && !first then '_' :: tail else tail
    else nameChars true first rest

def canonicalName (name : String) : String := String.ofList (nameChars false true name.toList)

def ownNames : List (String × Codec) :=
  [("utf_8", utf8), ("utf_16_le", utf16le), ("latin_1", latin1), ("ascii", ascii)]

def aliases : List (String × Codec) :=
  ["cp65001", "u8", "utf", "utf8", "utf8_ucs2", "utf8_ucs4"].map (·, utf8)
    ++ ["unicodelittleunmarked", "utf_16le"].map (·, utf16le)
    ++ ["8859", "cp819", "csisolatin1", "ibm819", "iso8859", "iso8859_1", "iso_8859_1",
        "iso_8859_1_1987", "iso_ir_100", "l1", "latin", "latin1"].map (·, latin1)
    ++ ["646", "ansi_x3.4_1968", "ansi_x3.4_1986", "ansi_x3_4_1968", "cp367", "csascii", "ibm367",
        "iso646_us", "iso_646.irv_1991", "iso_ir_6", "us", "us_ascii"].map (·, ascii)

def byName? (name : String) : Option Codec :=
  let key := canonicalName name
  let undotted := String.ofList (key.toList.map fun c => if c = '.' then '_' else c)
  aliases.lookup key <|> aliases.lookup undotted <|> ownNames.lookup key

def unit16 (n : Nat) : Bytes := [UInt8.ofNat (n % 256), UInt8.ofNat (n / 256)]

def units16 (c : Char) : List Nat :=
  if c.toNat < 0x10000 then [c.toNat]
  else [0xD800 + (c.toNat - 0x10000) / 0x400, 0xDC00 + (c.toNat - 0x10000) % 0x400]

def encodeBelow? (limit : Nat) (cs : List Char) : Option Bytes :=
  cs.mapM fun c => if c.toNat < limit then some (UInt8.ofNat c.toNat) else none

def encode? : Codec → String → Option Bytes
  | .utf8, s => some (Bytes.utf8 s)
  | .utf16le, s => some ((s.toList.flatMap units16).flatMap unit16)
  | .latin1, s => encodeBelow? 256 s.toList
  | .ascii, s => encodeBelow? 128 s.toList

def decodeUtf8? (b : Bytes) : Option String := String.fromUTF8? ⟨b.toArray⟩

def decode16? : Bytes → Option (List Char)
  | [] => some []
  | lo :: hi :: rest =>
    let n := lo.toNat + 256 * hi.toNat
    if n < 0xD800 ∨ 0xE000 ≤ n then (decode16? rest).map (Char.ofNat n :: ·)
    else if n < 0xDC00 then
      match rest with
      | lo' :: hi' :: rest' =>
        let m := lo'.toNat + 256 * hi'.toNat
        if 0xDC00 ≤ m ∧ m < 0xE000 then
          (decode16? rest').map (Char.ofNat (0x10000 + (n - 0xD800) * 0x400 + (m - 0xDC00)) :: ·)
        else none
      | _ => none
    else none
  | [_] => none

def decode? : Codec → Bytes → Option String
  | .utf8, b => decodeUtf8? b
  | .utf16le, b => (decode16? b).map String.ofList
  | .latin1, b => some (String.ofList (b.map fun x => Char.ofNat x.toNat))
  | .ascii, b =>
    if b.all (·.toNat < 128) then some (String.ofList (b.map fun x => Char.ofNat x.toNat)) else none

end Codec

end Depot.Text
