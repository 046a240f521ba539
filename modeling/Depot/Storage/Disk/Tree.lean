import Depot.Bytes
import Depot.Fault
import Depot.OrderedMap
import Depot.Times

/-!
A tree of folders, files and symbolic links below one root. A place is the
list of names that leads to it; the root is the empty list and need not be
there. Looking a place up follows links, so that a place and the place that it
stands for may differ. A link may lead to a folder above the root, which is
there, but of which only what was put into it through links is known.
-/
namespace Depot.Storage.Disk

abbrev Place := List String

inductive Node
  | file (content : Bytes)
  | folder
  | link (target : String)
  deriving DecidableEq

inductive OsFault
  | noEntry
  | alreadyThere
  | notDirectory
  | isDirectory
  | notEmpty
  | nameTooLong
  | tooManyLinks
  | linkRefused
  | nulByte
  /-- A failure for which neither the name nor the tree is to blame: no space is left, a file
  is too large, a device does not answer, too many files are open. -/
  | outOfOrder
  deriving DecidableEq, Repr

namespace OsFault

def toFault : OsFault → Fault
  | noEntry => .missingFile
  | notDirectory => .notDirectory
  | isDirectory => .directoryInTheWay
  | nulByte => .nulInName
  | alreadyThere => .fileInTheWay
  | notEmpty | nameTooLong | tooManyLinks | linkRefused | outOfOrder => .fileSystem

end OsFault

def nameLimit : Nat := 255

/-- The longest place, in bytes, each name counted with the separator before it. A system that
takes paths of 4095 bytes leaves so much below a root of up to 95. -/
def placeLimit : Nat := 4000

def linkLimit : Nat := 40

structure Tree where
  nodes : OrderedMap Place Node
  /-- When each place was last modified. -/
  times : Times Place

namespace Tree

def empty (times : Times Place := .still) : Tree := ⟨.empty, times⟩

def upward : String := ".."

def reachesUp (p : Place) : Bool := p.all (· = upward)

def node? (t : Tree) (p : Place) : Option Node :=
  if p ≠ [] ∧ reachesUp p then some .folder else t.nodes.get? p

def above (p : Place) : Place := if reachesUp p then p ++ [upward] else p.dropLast

def put (t : Tree) (p : Place) (n : Node) : Tree :=
  ⟨t.nodes.insert p n, (t.times.stamp p).stamp (above p)⟩

def remove (t : Tree) (p : Place) : Tree := ⟨t.nodes.erase p, t.times.stamp (above p)⟩

def removeBelow (t : Tree) (p : Place) : Tree :=
  ⟨t.nodes.filter fun q _ => !p.isPrefixOf q, t.times.stamp (above p)⟩

def names (t : Tree) (p : Place) : List String :=
  t.nodes.keys.filterMap fun q =>
    if p.isPrefixOf q ∧ q.length = p.length + 1 then q.getLast? else none

def children (t : Tree) (p : Place) : List String := (t.names p).mergeSort (· ≤ ·)

/-- Where a target with a separator at its start begins: far above the root. -/
def top : Place := List.replicate 16 upward

inductive Goal
  /-- The place itself, be it a link. -/
  | itself
  /-- What the place stands for. -/
  | target
  /-- A file to be written, whose name may not be followed by a separator. -/
  | output
  deriving DecidableEq, Repr

/-- Goes down from `here` by `names`; a link is replaced by its target, the last one
only if asked for. A last name that is not there is no failure. -/
def walk (t : Tree) (goal : Goal) (links : Nat) (here : Place) (names : List String) :
    Except OsFault Place :=
  match names with
  | [] => .ok here
  | name :: rest =>
    match t.node? here with
    | none => .error .noEntry
    | some (.file _) | some (.link _) => .error .notDirectory
    | some .folder =>
      if name = "" ∨ name = "." then walk t goal links here rest
      else if name = upward then walk t goal links (above here) rest
      else if goal = .output ∧ rest ≠ [] ∧ rest.all (· = "") then .error .isDirectory
      else if nameLimit < name.utf8ByteSize then .error .nameTooLong
      else
        match t.node? (here ++ [name]) with
        | none => if rest = [] then .ok (here ++ [name]) else .error .noEntry
        | some (.link target) =>
          if rest = [] ∧ goal = .itself then .ok (here ++ [name])
          else
            match links with
            | 0 => .error .tooManyLinks
            | links + 1 =>
              let onward := (target.toList.splitOn '/').map String.ofList
              let start := if target.toList.head? = some '/' then top else here
              walk t goal links start (onward ++ rest)
        | some _ => walk t goal links (here ++ [name]) rest
termination_by (links, names.length)

def hasNul (p : Place) : Bool := p.any fun name => '\x00' ∈ name.toList

def isTooLong (p : Place) : Bool :=
  placeLimit < p.foldr (fun name n => name.utf8ByteSize + 1 + n) 0

def locate (t : Tree) (goal : Goal) (p : Place) : Except OsFault Place :=
  if hasNul p then .error .nulByte
  else if isTooLong p then .error .nameTooLong
  else t.walk goal linkLimit [] p

def stat (t : Tree) (p : Place) : Except OsFault Node :=
  match t.locate .target p with
  | .error e => .error e
  | .ok real =>
    match t.node? real with
    | some n => .ok n
    | none => .error .noEntry

def meansAbsent : OsFault → Bool
  | .noEntry | .notDirectory | .tooManyLinks | .nulByte => true
  | _ => false

def test (t : Tree) (p : Place) (f : Node → Bool) : Except OsFault Bool :=
  match t.stat p with
  | .ok n => .ok (f n)
  | .error e => if meansAbsent e then .ok false else .error e

def isFolder (t : Tree) (p : Place) : Except OsFault Bool :=
  t.test p fun
    | .folder => true
    | _ => false

def isFile (t : Tree) (p : Place) : Except OsFault Bool :=
  t.test p fun
    | .file _ => true
    | _ => false

def hasFolder (t : Tree) (p : Place) : Bool :=
  match t.isFolder p with
  | .ok b => b
  | .error _ => false

def inventory (t : Tree) : List String :=
  (t.nodes.keys.filterMap fun p =>
    if p = [] ∨ p.head? = some upward then none
    else some ("/".intercalate p ++ (if t.hasFolder p then "/" else ""))).mergeSort (· ≤ ·)

def namesIn (t : Tree) (p : Place) : List String :=
  match t.locate .target p with
  | .ok real => t.children real
  | .error _ => []

/-- No more folders than this can be come across from the root: their places are made of
names in the tree and are not too long. -/
def folderBound (t : Tree) : Nat := (t.nodes.size + 1).pow (placeLimit + 1)

end Tree

end Depot.Storage.Disk
