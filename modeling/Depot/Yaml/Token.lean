import Depot.Bytes
import Depot.Fault
import Depot.Text.Loose

/-!
The marks and scalars of a YAML text. Outside brackets the column of a line
opens and closes blocks. A scalar or a bracket that may turn out to be a key is
remembered; the colon after it puts a key mark, and the start of a mapping,
before it.
-/
namespace Depot.Yaml

open Text (Loose)

inductive Token
  | documentStart
  | documentEnd
  | sequenceStart
  | mappingStart
  | blockEnd
  | bracketOpen
  | bracketClose
  | braceOpen
  | braceClose
  | item
  | comma
  | key
  | value
  | scalar (text : Loose) (quoted : Bool)
  /-- Where the text cannot be divided further. -/
  | broken (f : Fault)
  deriving DecidableEq, Repr

def isBreak (c : Char) : Bool := c = '\n' || c = '\x85' || c = '\u2028' || c = '\u2029'

def isSpace (c : Char) : Bool := c = ' ' || c = '\t'

def endsWord : List Char → Bool
  | [] => true
  | c :: _ => isSpace c || isBreak c

def startsSeparator (cs : List Char) : Bool :=
  (cs.take 3 = ['-', '-', '-'] || cs.take 3 = ['.', '.', '.']) && endsWord (cs.drop 3)

structure Cursor where
  rest : List Char
  line : Nat
  column : Nat
  index : Nat

namespace Cursor

def next (c : Cursor) : Cursor :=
  match c.rest with
  | [] => c
  | ch :: rest =>
    if isBreak ch then ⟨rest, c.line + 1, 0, c.index + 1⟩
    else ⟨rest, c.line, if ch = '\uFEFF' then c.column else c.column + 1, c.index + 1⟩

def skip : Nat → Cursor → Cursor
  | 0, c => c
  | n + 1, c => skip n c.next

def skipWhile (p : Char → Bool) (c : Cursor) : Cursor := c.skip (c.rest.takeWhile p).length

def skipToToken : Nat → Bool → Cursor → Bool × Cursor
  | 0, crossed, c => (crossed, c)
  | fuel + 1, crossed, c =>
    let c := c.skipWhile (· = ' ')
    let c := if c.rest.head? = some '#' then c.skipWhile (!isBreak ·) else c
    match c.rest with
    | ch :: _ => if isBreak ch then skipToToken fuel true c.next else (crossed, c)
    | [] => (crossed, c)

end Cursor

/-! ### Scalars -/

def folded (first : Char) (further : List Char) : List Char :=
  if first ≠ '\n' then first :: further
  else if further.isEmpty then [' ']
  else further

def lineEnd (c : Char) : Char := if c = '\x85' then '\n' else c

def plainRun (inBrackets : Bool) : List Char → List Char
  | [] => []
  | c :: rest =>
    if isSpace c || isBreak c then []
    else if c = ':'
        && (endsWord rest || (inBrackets && ",[]{}".toList.contains (rest.headD ' '))) then []
    else if inBrackets && ",?[]{}".toList.contains c then []
    else c :: plainRun inBrackets rest

/-- Line ends and spaces after a line end; `none` when a separator of documents
stands at the start of a line. -/
def plainBreaks : Nat → List Char → Cursor → Option (List Char) × Cursor
  | 0, breaks, c => (some breaks.reverse, c)
  | fuel + 1, breaks, c =>
    if c.column = 0 && startsSeparator c.rest then (none, c)
    else
      let c := c.skipWhile (· = ' ')
      match c.rest with
      | ch :: _ =>
        if isBreak ch then plainBreaks fuel (lineEnd ch :: breaks) c.next
        else (some breaks.reverse, c)
      | [] => (some breaks.reverse, c)

def plainSpaces (fuel : Nat) (c : Cursor) : List Char × Bool × Cursor :=
  let spaces := c.rest.takeWhile (· = ' ')
  let c := c.skip spaces.length
  match c.rest with
  | ch :: _ =>
    if isBreak ch then
      let (breaks, c) := plainBreaks fuel [] c.next
      match breaks with
      | some breaks => (folded (lineEnd ch) breaks, true, c)
      | none => ([], true, c)
    else (spaces, false, c)
  | [] => (spaces, false, c)

def takePlain (inBrackets : Bool) (indent : Int) :
    Nat → List Char → List Char → Bool → Cursor → String × Bool × Cursor
  | 0, taken, _, crossed, c => (String.ofList taken.reverse, crossed, c)
  | fuel + 1, taken, spaces, crossed, c =>
    let run := if c.rest.head? = some '#' then [] else plainRun inBrackets c.rest
    if run.isEmpty then (String.ofList taken.reverse, crossed, c)
    else
      let taken := run.reverse ++ (spaces.reverse ++ taken)
      let (spaces, crossed, c) := plainSpaces fuel (c.skip run.length)
      if spaces.isEmpty || (!inBrackets && (c.column : Int) < indent) then
        (String.ofList taken.reverse, crossed, c)
      else takePlain inBrackets indent fuel taken spaces crossed c

def shortEscape? : Char → Option Char
  | '0' => some '\x00'
  | 'a' => some '\x07'
  | 'b' => some '\x08'
  | 't' | '\t' => some '\t'
  | 'n' => some '\n'
  | 'v' => some '\x0b'
  | 'f' => some '\x0c'
  | 'r' => some '\r'
  | 'e' => some '\x1b'
  | ' ' => some ' '
  | '"' => some '"'
  | '\\' => some '\\'
  | '/' => some '/'
  | 'N' => some '\x85'
  | '_' => some '\u00a0'
  | 'L' => some '\u2028'
  | 'P' => some '\u2029'
  | _ => none

def codeLength? : Char → Option Nat
  | 'x' => some 2
  | 'u' => some 4
  | 'U' => some 8
  | _ => none

def codeOf? (digits : List Char) : Except Fault Nat :=
  match digits.foldlM (fun n d => (Bytes.hexValue? d).map (16 * n + ·)) 0 with
  | none => .error .badMarkup
  | some n =>
    if 0x7FFFFFFF < n then .error .outOfRange
    else if 0x10FFFF < n then .error .codeOutOfRange
    else .ok n

def quotedBreaks : Nat → List Char → Cursor → Except Fault (List Char × Cursor)
  | 0, breaks, c => .ok (breaks.reverse, c)
  | fuel + 1, breaks, c =>
    if startsSeparator c.rest then .error .badMarkup
    else
      let c := c.skipWhile isSpace
      match c.rest with
      | ch :: _ =>
        if isBreak ch then quotedBreaks fuel (lineEnd ch :: breaks) c.next
        else .ok (breaks.reverse, c)
      | [] => .ok (breaks.reverse, c)

def pushCodes (cs : List Char) (taken : List Nat) : List Nat :=
  (cs.map Char.toNat).reverse ++ taken

def takeQuoted (double : Bool) : Nat → List Nat → Cursor → Except Fault (Loose × Cursor)
  | 0, _, _ => .error .badMarkup
  | fuel + 1, taken, c =>
    match c.rest with
    | [] => .error .badMarkup
    | '\'' :: '\'' :: _ =>
      if double then takeQuoted double fuel (pushCodes ['\''] taken) c.next
      else takeQuoted double fuel (pushCodes ['\''] taken) (c.skip 2)
    | '\\' :: ch :: rest =>
      if !double then takeQuoted double fuel (pushCodes ['\\'] taken) c.next
      else if isBreak ch then do
        let (breaks, c) ← quotedBreaks fuel [] (c.skip 2)
        takeQuoted double fuel (pushCodes breaks taken) c
      else
        match shortEscape? ch, codeLength? ch with
        | some e, _ => takeQuoted double fuel (pushCodes [e] taken) (c.skip 2)
        | none, none => .error .badMarkup
        | none, some n => do
          if rest.length < n then throw .badMarkup
          let code ← codeOf? (rest.take n)
          takeQuoted double fuel (code :: taken) (c.skip (2 + n))
    | ch :: _ =>
      if ch = (if double then '"' else '\'') then .ok (.ofCodes taken.reverse, c.next)
      else if isSpace ch || isBreak ch then
        let spaces := c.rest.takeWhile isSpace
        let c := c.skip spaces.length
        match c.rest with
        | [] => .error .badMarkup
        | ch :: _ =>
          if isBreak ch then do
            let (breaks, c) ← quotedBreaks fuel [] c.next
            takeQuoted double fuel (pushCodes (folded (lineEnd ch) breaks) taken) c
          else takeQuoted double fuel (pushCodes spaces taken) c
      else takeQuoted double fuel (pushCodes [ch] taken) c.next

/-! ### Tokens -/

/-- A token that may turn out to be a key: its number and place. It is required
where only a key can stand. -/
structure Candidate where
  number : Nat
  required : Bool
  line : Nat
  column : Nat
  index : Nat

structure Lexer where
  cursor : Cursor
  /-- The length of the text, which no loop has to exceed. -/
  size : Nat
  /-- The tokens so far, newest first. -/
  tokens : List Token
  /-- Their number. -/
  count : Nat
  /-- The column of the innermost block, and those of the blocks around it. -/
  indent : Int
  outer : List Int
  /-- The candidate of each open bracket, innermost first, and of the block. -/
  candidates : List (Option Candidate)
  keyAllowed : Bool

namespace Lexer

def start (cs : List Char) : Lexer :=
  { cursor := ⟨cs, 0, 0, 0⟩, size := cs.length, tokens := [], count := 0, indent := -1,
    outer := [], candidates := [none], keyAllowed := true }

def inBrackets (s : Lexer) : Bool := 1 < s.candidates.length

def push (s : Lexer) (t : Token) : Lexer :=
  { s with tokens := t :: s.tokens, count := s.count + 1 }

/-- A key stands on one line, within 1024 characters. -/
def isStale (s : Lexer) (k : Candidate) : Bool :=
  k.line ≠ s.cursor.line || 1024 < s.cursor.index - k.index

def dropStale? (s : Lexer) : Except Fault Lexer := do
  let candidates ← s.candidates.mapM fun k => match k with
    | some k =>
      if s.isStale k then (if k.required then .error .badMarkup else .ok none) else .ok (some k)
    | none => .ok none
  return { s with candidates := candidates }

def setCandidate (s : Lexer) (k : Option Candidate) : Lexer :=
  { s with candidates := k :: s.candidates.drop 1 }

def candidate (s : Lexer) : Option Candidate := s.candidates.head?.join

def dropCandidate? (s : Lexer) : Except Fault Lexer :=
  if s.candidate.any (·.required) then .error .badMarkup else .ok (s.setCandidate none)

def noteCandidate? (s : Lexer) : Except Fault Lexer := do
  if !s.keyAllowed then return s
  let s ← s.dropCandidate?
  let c := s.cursor
  return s.setCandidate (some
    ⟨s.count, !s.inBrackets && s.indent = c.column, c.line, c.column, c.index⟩)

def indentTo (s : Lexer) (column : Nat) : Bool × Lexer :=
  if s.indent < column then (true, { s with indent := column, outer := s.indent :: s.outer })
  else (false, s)

def unwind : Nat → Int → Lexer → Lexer
  | 0, _, s => s
  | fuel + 1, column, s =>
    if s.inBrackets || s.indent ≤ column then s
    else
      unwind fuel column
        ({ s with indent := s.outer.headD (-1), outer := s.outer.drop 1 }.push .blockEnd)

def unwindTo (s : Lexer) (column : Int) : Lexer := unwind s.outer.length column s

def advance (s : Lexer) (n : Nat) : Lexer := { s with cursor := s.cursor.skip n }

def allow (s : Lexer) (keyAllowed : Bool) : Lexer := { s with keyAllowed := keyAllowed }

def separator? (s : Lexer) (t : Token) : Except Fault Lexer := do
  let s ← (s.unwindTo (-1)).dropCandidate?
  return ((s.allow false).push t).advance 3

def open? (s : Lexer) (t : Token) : Except Fault Lexer := do
  let s ← s.noteCandidate?
  let s := { s with candidates := none :: s.candidates }
  return ((s.allow true).push t).advance 1

def close? (s : Lexer) (t : Token) : Except Fault Lexer := do
  if !s.inBrackets then throw .badMarkup
  let s ← s.dropCandidate?
  let s := { s with candidates := s.candidates.drop 1 }
  return ((s.allow false).push t).advance 1

def comma? (s : Lexer) : Except Fault Lexer := do
  let s ← s.dropCandidate?
  return ((s.allow true).push .comma).advance 1

def openBlock? (s : Lexer) (t : Token) : Except Fault Lexer :=
  if s.inBrackets then .ok s
  else if !s.keyAllowed then .error .badMarkup
  else
    let (opened, s) := s.indentTo s.cursor.column
    .ok (if opened then s.push t else s)

def item? (s : Lexer) : Except Fault Lexer := do
  let s ← (← s.openBlock? .sequenceStart).dropCandidate?
  return ((s.allow true).push .item).advance 1

def key? (s : Lexer) : Except Fault Lexer := do
  let s ← (← s.openBlock? .mappingStart).dropCandidate?
  return ((s.allow !s.inBrackets).push .key).advance 1

def value? (s : Lexer) : Except Fault Lexer := do
  match s.candidate with
  | some k =>
    let (after, before) := s.tokens.splitAt (s.count - k.number)
    let (opened, s) := if s.inBrackets then (false, s) else s.indentTo k.column
    let marks := if opened then [.key, .mappingStart] else [.key]
    let s := { s with tokens := after ++ (marks ++ before), count := s.count + marks.length }
    return (((s.setCandidate none).allow false).push .value).advance 1
  | none =>
    let s ← (← s.openBlock? .mappingStart).dropCandidate?
    return ((s.allow !s.inBrackets).push .value).advance 1

def quoted? (s : Lexer) (double : Bool) : Except Fault Lexer := do
  let s ← s.noteCandidate?
  let (text, cursor) ← takeQuoted double s.size [] s.cursor.next
  return { (s.allow false).push (.scalar text true) with cursor := cursor }

def plain? (s : Lexer) : Except Fault Lexer := do
  let s ← s.noteCandidate?
  let (text, crossed, cursor) :=
    takePlain s.inBrackets (s.indent + 1) s.size [] [] false s.cursor
  return { (s.allow crossed).push (.scalar (.plain text) false) with cursor := cursor }

def startsPlain (inBrackets : Bool) : List Char → Bool
  | [] => false
  | c :: rest =>
    !(isSpace c || isBreak c || "-?:,[]{}#&*!|>'\"%@`".toList.contains c)
      || (!endsWord rest && (c = '-' || (!inBrackets && (c = '?' || c = ':'))))

def step? (s : Lexer) : Except Fault Lexer := do
  let (crossed, cursor) := s.cursor.skipToToken (s.size + 1) false
  let s := { s with cursor := cursor, keyAllowed := s.keyAllowed || (crossed && !s.inBrackets) }
  let s ← s.dropStale?
  let s := s.unwindTo s.cursor.column
  let cs := s.cursor.rest
  match cs with
  | [] => (s.unwindTo (-1)).dropCandidate?
  | c :: rest =>
    if s.cursor.column = 0 && startsSeparator cs then
      s.separator? (if c = '-' then .documentStart else .documentEnd)
    else if c = '[' then s.open? .bracketOpen
    else if c = '{' then s.open? .braceOpen
    else if c = ']' then s.close? .bracketClose
    else if c = '}' then s.close? .braceClose
    else if c = ',' then s.comma?
    else if c = '-' && endsWord rest then s.item?
    else if c = '?' && (s.inBrackets || endsWord rest) then s.key?
    else if c = ':' && (s.inBrackets || endsWord rest) then s.value?
    else if c = '\'' then s.quoted? false
    else if c = '"' then s.quoted? true
    else if startsPlain s.inBrackets cs then s.plain?
    else .error .badMarkup

def settled (s : Lexer) : List Token :=
  let numbers := s.candidates.filterMap fun k =>
    (k.filter fun k => !s.isStale k).map Candidate.number
  (s.tokens.drop (s.count - numbers.foldl min s.count)).reverse

def run : Nat → Lexer → List Token
  | 0, s => s.tokens.reverse
  | fuel + 1, s =>
    match s.step? with
    | .error f => s.settled ++ [.broken f]
    | .ok s' =>
      if s'.cursor.rest.isEmpty then
        match s'.step? with
        | .error f => s'.settled ++ [.broken f]
        | .ok s'' => s''.tokens.reverse
      else run fuel s'

end Lexer

def isAdmitted (c : Char) : Bool :=
  let n := c.toNat
  n = 9 || n = 10 || (0x20 ≤ n && n ≤ 0x7E) || n = 0x85 || (0xA0 ≤ n && n ≤ 0xFFFD) || 0x10000 ≤ n

def normalizeLineEnds : List Char → List Char
  | '\r' :: '\n' :: rest => '\n' :: normalizeLineEnds rest
  | '\r' :: rest => '\n' :: normalizeLineEnds rest
  | c :: rest => c :: normalizeLineEnds rest
  | [] => []

def tokens (s : String) : List Token :=
  let cs := normalizeLineEnds s.toList
  if cs.all isAdmitted then
    let cs := if cs.head? = some '\uFEFF' then cs.drop 1 else cs
    Lexer.run (cs.length + 1) (.start cs)
  else [.broken .badMarkup]

end Depot.Yaml
