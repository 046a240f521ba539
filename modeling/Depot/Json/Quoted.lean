import Depot.Decimal.Text
import Depot.Json.Value
import Depot.Text.Quoted

/-!
The form of values inside messages: texts in quotes, lists and objects in
brackets, and words for nothing and for truth values.
-/
namespace Depot.Json

mutual

def quoted : Json → String
  | .null => "None"
  | .bool b => if b then "True" else "False"
  | .int n => toString n
  | .float x => Decimal.floatText x
  | .text s => Text.quoted s
  | .codes units => Text.quotedCodes units
  | .list items => "[" ++ ", ".intercalate (quotedItems items) ++ "]"
  | .object members =>
    String.ofList ['{'] ++ ", ".intercalate (quotedMembers members) ++ String.ofList ['}']
  | .table entries =>
    String.ofList ['{'] ++ ", ".intercalate (quotedEntries entries) ++ String.ofList ['}']

def quotedItems : List Json → List String
  | [] => []
  | v :: rest => quoted v :: quotedItems rest

def quotedMembers : List (String × Json) → List String
  | [] => []
  | (name, v) :: rest => (Text.quoted name ++ ": " ++ quoted v) :: quotedMembers rest

def quotedEntries : List (Json × Json) → List String
  | [] => []
  | (k, v) :: rest => (quoted k ++ ": " ++ quoted v) :: quotedEntries rest

end

def shown : Json → String
  | .text s => s
  | .codes units => (Text.Loose.codes units).lossy
  | v => quoted v

end Depot.Json
