import Depot.Decimal.Whole
import Depot.Fault
import Depot.Json.Value

/-!
What is attached to a file. A caller attaches texts under names; a store that was
written by others may hold any value in their place, and a value that is read as
an object has to be one, or a list of names with their values.
-/
namespace Depot

abbrev Texts := OrderedMap String String

abbrev Metadata := Json

namespace Metadata

def empty : Metadata := .object []

def ofTexts (m : Texts) : Metadata := Json.ofTexts m

def asNumber : Json → Json
  | .bool b => .int (if b then 1 else 0)
  | .float x =>
    match Decimal.exactWhole? x with
    | some n => .int n
    | none => .float x
  | v => v

def sameName (v w : Json) : Bool :=
  match asNumber v, asNumber w with
  | .null, .null => true
  | .int a, .int b => a == b
  | .float a, .float b => a == b || (a.isNaN && b.isNaN)
  | .text a, .text b => a == b
  | .codes a, .codes b => a == b
  | _, _ => false

def insert (k v : Json) : List (Json × Json) → List (Json × Json)
  | [] => [(k, v)]
  | (k', v') :: rest => if sameName k k' then (k', v) :: rest else (k', v') :: insert k v rest

def parts? : Json → Option (List Json)
  | .list items => some items
  | .text s => some (s.toList.map fun c => .text (String.ofList [c]))
  | .codes units => some (units.map fun n => .ofCodes [n])
  | .object members => some (members.map fun m => .text m.1)
  | .table entries => some (entries.map Prod.fst)
  | _ => none

def isName : Json → Bool
  | .list _ | .object _ | .table _ => false
  | _ => true

def pair? (place : Nat) (item : Json) : Except Fault (Json × Json) :=
  match parts? item with
  | none => .error .wrongType
  | some [k, v] => if isName k then .ok (k, v) else .error .wrongType
  | some parts => .error (.notPair place parts.length)

def pairs? (place : Nat) (acc : List (Json × Json)) : List Json → Except Fault (List (Json × Json))
  | [] => .ok acc
  | item :: rest => do
    let (k, v) ← pair? place item
    pairs? (place + 1) (insert k v acc) rest

def asObject (m : Metadata) : Except Fault Metadata :=
  match m with
  | .object _ | .table _ => .ok m
  | m =>
    match m, parts? m with
    | .list _, some items | .text _, some items | .codes _, some items =>
      (pairs? 0 [] items).map .ofEntries
    | _, _ => .error .wrongType

end Metadata

end Depot
