import Depot.Yaml.Token

/-!
The tree that the marks of a document describe, before its scalars are read. A
mapping in a block may hold a sequence whose items stand no deeper than its keys;
inside brackets a pair may stand alone as an item.
-/
namespace Depot.Yaml

open Text (Loose)

inductive Node
  | scalar (text : Loose) (quoted : Bool)
  | sequence (items : List Node)
  | mapping (entries : List (Node × Node))
  deriving Inhabited

inductive Place
  | block
  /-- A value of a mapping in a block, where items may follow without a deeper
  column. -/
  | blockValue
  | bracket
  deriving DecidableEq, Repr

namespace Node

def absent : Node := .scalar "" false

def startsOneOf (stops : List Token) : List Token → Bool
  | t :: _ => stops.contains t
  | [] => true

def unexpected : List Token → Fault
  | .broken f :: _ => f
  | _ => .badMarkup

def expect (t : Token) (ts : List Token) : Except Fault (List Token) :=
  match ts with
  | t' :: rest => if t' = t then .ok rest else .error (unexpected ts)
  | [] => .error .badMarkup

mutual

def take : Nat → Nat → Place → List Token → Except Fault (Node × List Token)
  | 0, _, _, _ => .error .badMarkup
  | fuel + 1, depth, place, ts =>
    match ts with
    | .scalar text quoted :: rest => .ok (.scalar text quoted, rest)
    | _ =>
      match depth with
      | 0 => .error .tooNested
      | depth + 1 =>
        match ts with
        | .bracketOpen :: rest => do
          let (items, rest) ← takeItems fuel depth true rest
          return (.sequence items, rest)
        | .braceOpen :: rest => do
          let (entries, rest) ← takePairs fuel depth true rest
          return (.mapping entries, rest)
        | .sequenceStart :: rest => do
          if place = .bracket then throw .badMarkup
          let (items, rest) ← takeBlockItems fuel depth [.item, .blockEnd] rest
          return (.sequence items, ← expect .blockEnd rest)
        | .mappingStart :: rest => do
          if place = .bracket then throw .badMarkup
          let (entries, rest) ← takeBlockEntries fuel depth rest
          return (.mapping entries, ← expect .blockEnd rest)
        | .item :: _ => do
          if place ≠ .blockValue then throw .badMarkup
          let (items, rest) ← takeBlockItems fuel depth [.item, .key, .value, .blockEnd] ts
          return (.sequence items, rest)
        | _ => .error (unexpected ts)

def takeOptional : Nat → Nat → Place → List Token → List Token →
    Except Fault (Node × List Token)
  | 0, _, _, _, _ => .error .badMarkup
  | fuel + 1, depth, place, stops, ts =>
    if startsOneOf stops ts then .ok (absent, ts) else take fuel depth place ts

def takeValue : Nat → Nat → Place → List Token → List Token → Except Fault (Node × List Token)
  | 0, _, _, _, _ => .error .badMarkup
  | fuel + 1, depth, place, stops, ts =>
    match ts with
    | .value :: rest => takeOptional fuel depth place stops rest
    | _ => .ok (absent, ts)

def takeBlockItems : Nat → Nat → List Token → List Token → Except Fault (List Node × List Token)
  | 0, _, _, _ => .error .badMarkup
  | fuel + 1, depth, stops, ts =>
    match ts with
    | .item :: rest => do
      let (v, rest) ← takeOptional fuel depth .block stops rest
      let (more, rest) ← takeBlockItems fuel depth stops rest
      return (v :: more, rest)
    | _ => .ok ([], ts)

def takeBlockEntries : Nat → Nat → List Token → Except Fault (List (Node × Node) × List Token)
  | 0, _, _ => .error .badMarkup
  | fuel + 1, depth, ts =>
    match ts with
    | .key :: rest => do
      let stops : List Token := [.key, .value, .blockEnd]
      let (k, rest) ← takeOptional fuel depth .blockValue stops rest
      let (v, rest) ← takeValue fuel depth .blockValue stops rest
      let (more, rest) ← takeBlockEntries fuel depth rest
      return ((k, v) :: more, rest)
    | _ => .ok ([], ts)

def takeItems : Nat → Nat → Bool → List Token → Except Fault (List Node × List Token)
  | 0, _, _, _ => .error .badMarkup
  | fuel + 1, depth, first, ts =>
    match ts with
    | .bracketClose :: rest => .ok ([], rest)
    | _ => do
      let ts ← if first then .ok ts else expect .comma ts
      match ts with
      | .bracketClose :: rest => return ([], rest)
      | .key :: rest =>
        match depth with
        | 0 => .error .tooNested
        | inner + 1 => do
          let (k, rest) ← takeOptional fuel inner .bracket [.value, .comma, .bracketClose] rest
          let (v, rest) ← takeValue fuel inner .bracket [.comma, .bracketClose] rest
          let (more, rest) ← takeItems fuel (inner + 1) false rest
          return (.mapping [(k, v)] :: more, rest)
      | _ =>
        let (v, rest) ← take fuel depth .bracket ts
        let (more, rest) ← takeItems fuel depth false rest
        return (v :: more, rest)

def takePairs : Nat → Nat → Bool → List Token → Except Fault (List (Node × Node) × List Token)
  | 0, _, _, _ => .error .badMarkup
  | fuel + 1, depth, first, ts =>
    match ts with
    | .braceClose :: rest => .ok ([], rest)
    | _ => do
      let ts ← if first then .ok ts else expect .comma ts
      match ts with
      | .braceClose :: rest => return ([], rest)
      | .key :: rest =>
        let (k, rest) ← takeOptional fuel depth .bracket [.value, .comma, .braceClose] rest
        let (v, rest) ← takeValue fuel depth .bracket [.comma, .braceClose] rest
        let (more, rest) ← takePairs fuel depth false rest
        return ((k, v) :: more, rest)
      | _ =>
        let (k, rest) ← take fuel depth .bracket ts
        let (more, rest) ← takePairs fuel depth false rest
        return ((k, absent) :: more, rest)

end

def depthLimit : Nat := 488

def content (ts : List Token) : Except Fault (Node × List Token) :=
  takeOptional (4 * ts.length + 4) depthLimit .block [.documentStart, .documentEnd] ts

def ended (ts : List Token) : Except Fault Unit :=
  match ts.dropWhile (· = .documentEnd) with
  | [] => .ok ()
  | rest => .error (unexpected rest)

def ofTokens (ts : List Token) : Except Fault Node := do
  match ts with
  | .documentEnd :: _ => throw .badMarkup
  | _ =>
    let (node, rest) ← content (if ts.head? = some .documentStart then ts.drop 1 else ts)
    ended rest
    return node

end Node

end Depot.Yaml
