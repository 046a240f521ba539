import Depot.OrderedMap
import Depot.Text.Loose

/-!
Values of the JSON data format. Whole numbers and doubles are kept apart; the
members of an object keep the order of their first appearance. Escapes may put
half of a surrogate pair into a string, which no text can hold; such a string is
kept as its codes.
-/
namespace Depot

inductive Json
  | null
  | bool (b : Bool)
  | int (n : Int)
  | float (x : Float)
  | text (s : String)
  /-- A string in which some code is no character. -/
  | codes (units : List Nat)
  | list (items : List Json)
  | object (members : List (String × Json))
  /-- An object whose names are not all texts. -/
  | table (entries : List (Json × Json))
  deriving Inhabited

namespace Json

def digitLimit : Nat := 4300

def member? (key : String) : Json → Option Json
  | .object members => members.reverse.lookup key
  | _ => none

def get (v : Json) (key : String) : Json := (v.member? key).getD .null

def text? : Json → Option String
  | .text s => some s
  | _ => none

def int? : Json → Option Int
  | .int n => some n
  | .bool b => some (if b then 1 else 0)
  | _ => none

def items : Json → List Json
  | .list l => l
  | _ => []

def members : Json → List (String × Json)
  | .object l => l
  | _ => []

def isEmpty : Json → Bool
  | .null => true
  | .bool b => !b
  | .int n => n == 0
  | .float x => x == 0
  | .text s => s == ""
  | .codes units => units.isEmpty
  | .list items => items.isEmpty
  | .object members => members.isEmpty
  | .table entries => entries.isEmpty

def ofTexts (m : OrderedMap String String) : Json :=
  .object (m.entries.map fun e => (e.1, .text e.2))

def ofLoose : Text.Loose → Json
  | .plain s => .text s
  | .codes units => .codes units

def ofCodes (units : List Nat) : Json := ofLoose (.ofCodes units)

def plainNames? {α : Type} (entries : List (Json × α)) : Option (List (String × α)) :=
  entries.mapM fun e => e.1.text?.map (·, e.2)

def ofEntries (entries : List (Json × Json)) : Json :=
  match plainNames? entries with
  | some members => .object members
  | none => .table entries

/-- Members in the order of their names' first appearance, each with its last value. -/
def ofMembers (members : List (List Nat × Json)) : Json :=
  ofEntries ((OrderedMap.ofList members).entries.map fun e => (ofCodes e.1, e.2))

end Json

end Depot
