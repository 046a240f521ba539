import Depot.Yaml.Node
import Depot.Yaml.Scalar

/-!
The value of a YAML text. The tree of the text comes first, and any flaw in it
before those of its values. A mapping may be merged from others: their entries
come before its own, so that its own decide. Of several flaws in values the one
least deep in the tree is reported, and of those the first.
-/
namespace Depot.Yaml

structure Flaw where
  depth : Nat
  fault : Fault

abbrev Checked (α : Type) := Except Flaw α

namespace Checked

def ofResult {α : Type} (depth : Nat) : Except Fault α → Checked α
  | .ok a => .ok a
  | .error f => .error ⟨depth, f⟩

def both {α β : Type} (x : Checked α) (y : Checked β) : Checked (α × β) :=
  match x, y with
  | .ok a, .ok b => .ok (a, b)
  | .error e, .ok _ => .error e
  | .ok _, .error e => .error e
  | .error d, .error e => .error (if e.depth < d.depth then e else d)

def all {α : Type} : List (Checked α) → Checked (List α)
  | [] => .ok []
  | x :: rest => (x.both (all rest)).map fun r => r.1 :: r.2

end Checked

namespace Node

def isMergeMark : Node → Bool
  | .scalar text quoted => !quoted && text = .plain "<<"
  | _ => false

def asKey : Node → Node
  | .scalar (.plain "=") false => .scalar "=" true
  | n => n

mutual

/-- The entries of a mapping with those of the mappings that it names before them; of
several mappings named together the first comes last. -/
def flatten : Node → Except Fault (List (Node × Node))
  | .mapping entries => do
    let (merged, own) ← flattenEntries entries
    return merged ++ own
  | _ => .error .badMarkup

def flattenEntries : List (Node × Node) → Except Fault (List (Node × Node) × List (Node × Node))
  | [] => .ok ([], [])
  | (k, v) :: rest => do
    if k.isMergeMark then
      let named ← flattenNamed v
      let (merged, own) ← flattenEntries rest
      return (named ++ merged, own)
    else
      let (merged, own) ← flattenEntries rest
      return (merged, (k.asKey, v) :: own)

def flattenNamed : Node → Except Fault (List (Node × Node))
  | .sequence items => flattenAll items
  | .mapping entries => do
    let (merged, own) ← flattenEntries entries
    return merged ++ own
  | .scalar _ _ => .error .badMarkup

def flattenAll : List Node → Except Fault (List (Node × Node))
  | [] => .ok []
  | n :: rest => do
    let first ← flatten n
    let others ← flattenAll rest
    return others ++ first

end

def scalarValue (text : Text.Loose) (quoted : Bool) : Except Fault Value :=
  match text, quoted with
  | .plain s, false => Scalar.value? s
  | text, _ => .ok (.text text)

def keyValue (depth : Nat) : Node → Checked Value
  | .scalar text quoted => .ofResult depth (scalarValue text quoted)
  | _ => .error ⟨depth, .badMarkup⟩

def value : Nat → Nat → Node → Checked Value
  | 0, depth, _ => .error ⟨depth, .tooNested⟩
  | _ + 1, depth, .scalar text quoted => .ofResult depth (scalarValue text quoted)
  | fuel + 1, depth, .sequence items => (Checked.all (items.map (value fuel (depth + 1)))).map .list
  | fuel + 1, depth, .mapping entries =>
    match flatten (.mapping entries) with
    | .error f => .error ⟨depth + 1, f⟩
    | .ok entries =>
      (Checked.all (entries.map fun e =>
        (keyValue (depth + 1) e.1).both (value fuel (depth + 1) e.2))).map .ofEntries

end Node

def parse? (s : String) : Except Fault Value := do
  let node ← Node.ofTokens (tokens s)
  (node.value (Node.depthLimit + 1) 0).mapError Flaw.fault

end Depot.Yaml
