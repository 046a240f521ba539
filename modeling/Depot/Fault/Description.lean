import Depot.Fault
import Depot.Json.Quoted

/-!
Faults described from the values that a caller gives for their parameters, which
may be of any type. A value is given by its place or by its name; a parameter
without either has its usual value, if there is one.
-/
namespace Depot.Fault

structure Parameter where
  name : String
  /-- The value when none is given. -/
  usual : Option Json

def Kind.parameters : Kind → List Parameter
  | .other => [⟨"code", none⟩, ⟨"message", none⟩]
  | .notFound => [⟨"target", some (.text "")⟩, ⟨"message", some .null⟩]
  | .unsupported => [⟨"operation", none⟩, ⟨"backend", some (.text "")⟩]
  | .capacity => [⟨"message", none⟩]
  | .invalidPath => [⟨"path", none⟩, ⟨"reason", none⟩]
  | k => [⟨"message", some (.text k.usualWording)⟩]

def fillParameters (named : List (String × Json)) :
    List Parameter → List Json → Except Fault (List Json)
  | [], [] => .ok []
  | [], _ :: _ => .error .wrongType
  | p :: rest, v :: placed =>
    if (named.lookup p.name).isSome then .error .wrongType
    else (fillParameters named rest placed).map (v :: ·)
  | p :: rest, [] =>
    match named.lookup p.name <|> p.usual with
    | some v => (fillParameters named rest []).map (v :: ·)
    | none => .error .wrongType

structure Description where
  kind : Kind
  code : Json
  message : Json
  /-- The values that the fault keeps by name. -/
  attributes : List (String × Json)

def Kind.described (k : Kind) (values : List Json) : Description :=
  let code : Json := (k.code?.map Json.text).getD .null
  let value (i : Nat) : Json := values.getD i .null
  match k with
  | .other => ⟨k, value 0, value 1, []⟩
  | .notFound =>
    let message := if (value 1).isEmpty then
        .text ("The specified resource does not exist: " ++ (value 0).quoted)
      else value 1
    ⟨k, code, message, [("target", value 0)]⟩
  | .unsupported =>
    let place := if (value 1).isEmpty then "" else " by " ++ (value 1).shown
    ⟨k, code, .text ("Operation " ++ (value 0).quoted ++ " is not supported" ++ place ++ "."),
      [("operation", value 0), ("backend", value 1)]⟩
  | .invalidPath =>
    ⟨k, code, .text ("Invalid path " ++ (value 0).quoted ++ ": " ++ (value 1).shown),
      [("path", value 0)]⟩
  | _ => ⟨k, code, value 0, []⟩

def Kind.describe (k : Kind) (placed : List Json) (named : List (String × Json)) :
    Except Fault Description :=
  if named.all fun m => k.parameters.any (·.name = m.1) then
    (fillParameters named k.parameters placed).map k.described
  else .error .wrongType

def Kind.isNumbered (k : Kind) : Bool :=
  [.missingFile, .notDirectory, .directoryInTheWay, .fileInTheWay, .fileSystem].contains k

def shownValues (k : Kind) : List Json → String
  | [] => ""
  | [v] => if k = .missingKey then v.quoted else v.shown
  | values =>
    match k.isNumbered, values with
    | true, [number, text] => "[Errno " ++ number.shown ++ "] " ++ text.shown
    | _, _ => "(" ++ ", ".intercalate (values.map Json.quoted) ++ ")"

def Kind.textOf (k : Kind) (values : List Json) : Except Fault String :=
  if k.isOwn then (k.describe values []).map (·.message.shown)
  else .ok (shownValues k values)

end Depot.Fault
