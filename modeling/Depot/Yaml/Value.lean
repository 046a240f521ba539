import Depot.Decimal.Whole
import Depot.Json.Value
import Depot.Yaml.Timestamp

/-!
Values of a YAML document. A mapping keeps its keys in the order of their first
appearance, and a key that occurs again takes the later value. Truth values and
numbers that are equal are the same key.
-/
namespace Depot.Yaml

open Text (Loose)

inductive Value
  | null
  | bool (b : Bool)
  | int (n : Int)
  | float (x : Float)
  | text (s : Loose)
  | time (t : Timestamp)
  | list (items : List Value)
  | mapping (entries : List (Value × Value))
  deriving Inhabited

namespace Value

def asNumber : Value → Value
  | .bool b => .int (if b then 1 else 0)
  | .float x =>
    match Decimal.exactWhole? x with
    | some n => .int n
    | none => .float x
  | v => v

def sameScalar (v w : Value) : Bool :=
  match v.asNumber, w.asNumber with
  | .null, .null => true
  | .int a, .int b => a == b
  | .float a, .float b => a == b || (a.isNaN && b.isNaN)
  | .text a, .text b => a == b
  | .time a, .time b => a.same b
  | _, _ => false

def insert (k v : Value) : List (Value × Value) → List (Value × Value)
  | [] => [(k, v)]
  | (k', v') :: rest => if sameScalar k k' then (k', v) :: rest else (k', v') :: insert k v rest

def ofEntries (entries : List (Value × Value)) : Value :=
  .mapping (entries.foldl (fun l e => insert e.1 e.2 l) [])

def lookup? (key : String) (entries : List (Value × Value)) : Option Value :=
  (entries.find? fun e => sameScalar (.text key) e.1).map Prod.snd

def byName (a b : Value × Value) : Bool :=
  match a.1, b.1 with
  | .text (.plain s), .text (.plain t) => s ≤ t
  | _, _ => true

def isEmpty : Value → Bool
  | .null => true
  | .bool b => !b
  | .int n => n == 0
  | .float x => x == 0
  | .text s => s.isEmpty
  | .time _ => false
  | .list items => items.isEmpty
  | .mapping entries => entries.isEmpty

mutual

def ofJson : Json → Value
  | .null => .null
  | .bool b => .bool b
  | .int n => .int n
  | .float x => .float x
  | .text s => .text s
  | .codes units => .text (.codes units)
  | .list items => .list (ofItems items)
  | .object members => .mapping ((ofMembers members).mergeSort byName)
  | .table entries => .mapping (ofTable entries)

def ofItems : List Json → List Value
  | [] => []
  | v :: rest => ofJson v :: ofItems rest

def ofMembers : List (String × Json) → List (Value × Value)
  | [] => []
  | (name, v) :: rest => (.text name, ofJson v) :: ofMembers rest

def ofTable : List (Json × Json) → List (Value × Value)
  | [] => []
  | (k, v) :: rest => (ofJson k, ofJson v) :: ofTable rest

end

end Value

end Depot.Yaml
