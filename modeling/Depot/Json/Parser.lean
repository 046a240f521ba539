import Depot.Json.Value
import Depot.Bytes
import Depot.Decimal.Reading

/-!
Reading JSON text. A number with a fraction or an exponent is a double, any
other a whole number of bounded length; `NaN`, `Infinity` and `-Infinity` are
accepted. A name that occurs twice keeps its first place and takes its last
value. Control characters may not stand in a string. Values may not be nested
without bound.
-/
namespace Depot.Json

def isBlank (c : Char) : Bool := c = ' ' || c = '\t' || c = '\n' || c = '\r'

def skipBlanks (cs : List Char) : List Char := cs.dropWhile isBlank

def takeUnit? : List Char → Option (Nat × List Char)
  | a :: b :: c :: d :: rest => do
    let w ← Bytes.hexValue? a
    let x ← Bytes.hexValue? b
    let y ← Bytes.hexValue? c
    let z ← Bytes.hexValue? d
    return (4096 * w + 256 * x + 16 * y + z, rest)
  | _ => none

def shortEscape? : Char → Option Char
  | '"' => some '"'
  | '\\' => some '\\'
  | '/' => some '/'
  | 'b' => some '\x08'
  | 'f' => some '\x0c'
  | 'n' => some '\n'
  | 'r' => some '\r'
  | 't' => some '\t'
  | _ => none

/-- The code of one written character of a string and what follows it; an escaped
pair of surrogates is one character. -/
def takeCode? : List Char → Option (Nat × List Char)
  | '\\' :: 'u' :: rest => do
    let (n, rest) ← takeUnit? rest
    match rest with
    | '\\' :: 'u' :: low =>
      if 0xD800 ≤ n ∧ n < 0xDC00 then do
        let (m, after) ← takeUnit? low
        if 0xDC00 ≤ m ∧ m < 0xE000 then
          return (0x10000 + (n - 0xD800) * 0x400 + (m - 0xDC00), after)
        else return (n, rest)
      else return (n, rest)
    | _ => return (n, rest)
  | '\\' :: c :: rest => (shortEscape? c).map fun e => (e.toNat, rest)
  | ['\\'] => none
  | c :: rest => if c.toNat < 0x20 then none else some (c.toNat, rest)
  | [] => none

def takeString? : Nat → List Char → Option (List Nat × List Char)
  | 0, _ => none
  | _, '"' :: rest => some ([], rest)
  | fuel + 1, cs => do
    let (c, rest) ← takeCode? cs
    let (more, rest) ← takeString? fuel rest
    return (c :: more, rest)

def takeNumber? (cs : List Char) : Option (Json × List Char) :=
  let (negative, cs) : Bool × List Char :=
    match cs with
    | '-' :: rest => (true, rest)
    | _ => (false, cs)
  let (literal, rest) := Decimal.takeLiteral cs
  let (literal, rest) : Decimal.Literal × List Char :=
    match literal.whole with
    | '0' :: _ :: _ => (⟨['0'], none, none⟩, cs.drop 1)
    | _ =>
      match literal.fraction with
      | some [] => (⟨literal.whole, none, none⟩, cs.drop literal.whole.length)
      | _ => (literal, rest)
  if literal.whole.isEmpty then none
  else if literal.fraction.isNone ∧ literal.exponent.isNone then
    let n : Int := Decimal.natOfDigits literal.whole
    if digitLimit < literal.whole.length then none
    else some (.int (if negative then -n else n), rest)
  else some (.float (Decimal.signed negative literal.toFloat), rest)

def takeWord? (word : List Char) (v : Json) (cs : List Char) : Option (Json × List Char) :=
  if word.isPrefixOf cs then some (v, cs.drop word.length) else none

def takeScalar? (cs : List Char) : Option (Json × List Char) :=
  takeWord? "null".toList .null cs
    <|> takeWord? "true".toList (.bool true) cs
    <|> takeWord? "false".toList (.bool false) cs
    <|> takeWord? "NaN".toList (.float (0.0 / 0.0)) cs
    <|> takeWord? "Infinity".toList (.float (1.0 / 0.0)) cs
    <|> takeWord? "-Infinity".toList (.float (-1.0 / 0.0)) cs
    <|> takeNumber? cs

inductive Flaw
  | malformed
  /-- Values are nested too deeply. -/
  | nested
  deriving DecidableEq, Repr

def required {α : Type} : Option α → Except Flaw α
  | some a => .ok a
  | none => .error .malformed

mutual

/-- A value at the start of a text, and what follows it. `fuel` bounds the number of
its parts and `depth` the nesting. -/
def takeValue : Nat → Nat → List Char → Except Flaw (Json × List Char)
  | 0, _, _ => .error .malformed
  | fuel + 1, depth, cs =>
    match cs with
    | '"' :: rest => do
      let (s, rest) ← required (takeString? (rest.length + 1) rest)
      return (ofCodes s, rest)
    | '[' :: rest =>
      match depth with
      | 0 => .error .nested
      | depth + 1 =>
        match skipBlanks rest with
        | ']' :: rest => .ok (.list [], rest)
        | rest => do
          let (items, rest) ← takeItems fuel depth rest
          return (.list items, rest)
    | '{' :: rest =>
      match depth with
      | 0 => .error .nested
      | depth + 1 =>
        match skipBlanks rest with
        | '}' :: rest => .ok (.object [], rest)
        | rest => do
          let (members, rest) ← takeMembers fuel depth rest
          return (ofMembers members, rest)
    | _ => required (takeScalar? cs)

def takeItems : Nat → Nat → List Char → Except Flaw (List Json × List Char)
  | 0, _, _ => .error .malformed
  | fuel + 1, depth, cs => do
    let (v, rest) ← takeValue fuel depth cs
    match skipBlanks rest with
    | ',' :: rest => do
      let (more, rest) ← takeItems fuel depth (skipBlanks rest)
      return (v :: more, rest)
    | ']' :: rest => return ([v], rest)
    | _ => .error .malformed

def takeMembers : Nat → Nat → List Char → Except Flaw (List (List Nat × Json) × List Char)
  | 0, _, _ => .error .malformed
  | fuel + 1, depth, cs =>
    match cs with
    | '"' :: rest => do
      let (name, rest) ← required (takeString? (rest.length + 1) rest)
      match skipBlanks rest with
      | ':' :: rest => do
        let (v, rest) ← takeValue fuel depth (skipBlanks rest)
        match skipBlanks rest with
        | ',' :: rest => do
          let (more, rest) ← takeMembers fuel depth (skipBlanks rest)
          return ((name, v) :: more, rest)
        | '}' :: rest => return ([(name, v)], rest)
        | _ => .error .malformed
      | _ => .error .malformed
    | _ => .error .malformed

end

def read (depth : Nat) (s : String) : Except Flaw Json := do
  let cs := s.toList
  let (v, rest) ← takeValue (cs.length + 1) depth (skipBlanks cs)
  if (skipBlanks rest).isEmpty then return v else .error .malformed

def parse? (s : String) : Option Json := (read s.length s).toOption

def usualDepth : Nat := 980

end Depot.Json
