import Depot.Json.Parser
import Depot.Json.Printer
import Depot.Storage.Disk.Call
import Depot.Text.Codec

/-!
The store on a file tree. A path is the place of its segments. The metadata of
a file are kept in a sidecar beside it; a write goes to a temporary file that
is then renamed over the old content. Both kinds of extra name are reserved.
-/
namespace Depot.Storage.Disk

def sidecarExtension : String := ".attr"

def temporaryFolder : String := ".tmp"

def someTime : String := "<time>"

def isSidecarName (name : String) : Bool := sidecarExtension.toList.isSuffixOf name.toList

def place? (path : String) : Except Fault Place :=
  let names := Path.segments path
  if names.head? = some temporaryFolder ∨ (names.getLast?.any isSidecarName) then
    .error (.invalidPath (some path) "the name is reserved by the local storage backend")
  else .ok names

def pathOf (p : Place) : String := Path.normalize (Path.join p)

def sidecar (p : Place) : Place := p.dropLast ++ [p.getLastD "" ++ sidecarExtension]

/-- The value in a sidecar. One that cannot be read counts as empty, unless it is nested
too deeply. -/
def readMetadata (t : Tree) (p : Place) : Except Fault Metadata :=
  match t.stat (sidecar p) with
  | .ok (.file content) =>
    match (Text.Codec.utf8.decode? content).map (Json.read Json.usualDepth) with
    | some (.ok m) => .ok m
    | some (.error .nested) => .error .tooNested
    | _ => .ok .empty
  | _ => .ok .empty

def modified (t : Tree) (p : Place) : Calendar.Instant :=
  match t.locate .target p with
  | .ok real => t.times.last real
  | .error _ => t.times.last p

def entryOf (t : Tree) (p : Place) (withMetadata : Bool) : Except Fault Entry := do
  let accessed := OrderedMap.empty.insert "last_access_utc" someTime
  match t.stat p with
  | .error e => throw e.toFault
  | .ok .folder => return .make .folder (pathOf p) none true accessed .empty (modified t p)
  | .ok (.file content) =>
    let metadata ← if withMetadata then readMetadata t p else .ok .empty
    return .make .file (pathOf p) (some content.length) true
      (accessed.insert "is_read_only" "False") metadata (modified t p)
  | .ok (.link _) => throw .missingFile

def levelItem (t : Tree) (folder : Place) (o : Listing.Options) (name : String) :
    Except Fault (Option Entry) :=
  let p := folder ++ [name]
  match t.stat p with
  | .ok .folder =>
    if folder = [] ∧ name = temporaryFolder then .ok none else (entryOf t p false).map some
  | .error e => if e = .noEntry then .ok none else .error e.toFault
  | .ok _ =>
    if isSidecarName name then .ok none
    else if Listing.Options.prefixPasses o.filePrefix name then
      (entryOf t p o.withMetadata).map some
    else .ok none

def level (t : Tree) (path : String) (o : Listing.Options) : Listing.Reply := do
  let p ← place? path
  if ← (t.isFolder p).mapError OsFault.toFault then
    let entries := (← (t.namesIn p).mapM (levelItem t p o)).filterMap id
    return entries.filter (·.isFolder) ++ entries.filter (·.isFile)
  else throw (.notFound path none)

def holds (t : Tree) (path : String) : Except Fault Bool := do
  (t.isFile (← place? path)).mapError OsFault.toFault

def entry? (t : Tree) (path : String) : Except Fault (Option Entry) := do
  let p ← place? path
  if ← (t.isFile p).mapError OsFault.toFault then
    return some (← entryOf t p true)
  else return none

def read (t : Tree) (path : String) : Except Fault Bytes := do
  let p ← place? path
  if ← (t.isFile p).mapError OsFault.toFault then
    match t.stat p with
    | .ok (.file content) => return content
    | _ => throw (.notFound path none)
  else throw (.notFound path none)

def ensureFolder (p : Place) : Os Unit :=
  tryCatch (Os.perform (.makeFolder p)) fun e => do
    if e = .noEntry ∨ e = .nulByte then throw e
    if !(← Os.ask (·.isFolder p)) then throw e

/-- Makes a folder with all that are missing above it; its names come innermost first. Calls nest
to any depth here, where a bounded call stack would give out at about a thousand folders. -/
def ensureFolders : List String → Os Unit
  | [] => ensureFolder []
  | name :: rest =>
    let p := (name :: rest).reverse
    tryCatch (ensureFolder p) fun e => do
      if e ≠ .noEntry then throw e
      ensureFolders rest
      ensureFolder p

def makeFolders (p : Place) : Os Unit := ensureFolders p.reverse

/-- The first number of at most 128 bits that is not the name of a temporary file. -/
def freshName (t : Tree) : String :=
  let taken := t.namesIn [temporaryFolder]
  let candidates := (List.range (min (taken.length + 1) (Nat.pow 2 128))).map toString
  (candidates.find? fun name => !taken.contains name).getD "0"

def replaceCalls (temporary target : Place) (data : Bytes) : List Call :=
  [.create temporary, .write temporary data, .sync temporary, .rename temporary target]

/-- Replaces a content in one step; a refusal takes the temporary file away again. -/
def overwrite (p : Place) (data : Bytes) : Os Unit := do
  ensureFolder [temporaryFolder]
  let temporary : Place := [temporaryFolder, freshName (← get)]
  tryCatch (Os.performAll (replaceCalls temporary p data)) fun e => do
    Os.allowing (fun _ => true) (Os.perform (.unlink temporary))
    throw e

def fileAbove (t : Tree) (p : Place) : Except OsFault (Option Place) :=
  let above := ((List.range (p.length - 1)).map fun i => p.take (i + 1)).reverse
  go above
where
  go : List Place → Except OsFault (Option Place)
    | [] => .ok none
    | q :: rest => do if ← t.isFile q then return some q else go rest

def write (path : String) (data : Bytes) (append : Bool) : Action Tree Unit := do
  if Path.isRoot path then throw (.notFound path (some "Cannot write to the root folder"))
  let p ← Action.ask fun _ => place? path
  if ← (Os.ask (·.isFolder p)).act then throw (.isFolder path)
  if let some q ← (Os.ask (fileAbove · p)).act then throw (.underFile path (pathOf q))
  (makeFolders p.dropLast).act
  if append then (Os.perform (.extend p data)).act else (overwrite p data).act

def prune (innermostFirst : List String) : Os Unit :=
  match innermostFirst with
  | [] => pure ()
  | name :: rest =>
    tryCatch (do
      Os.perform (.removeFolder (name :: rest).reverse)
      prune rest) fun _ => pure ()

def clear : Os Unit := do
  (((← get).names []).filter (· ≠ temporaryFolder)).forM fun name => do
    if ← Os.ask (·.isFolder [name]) then Os.perform (.removeTree [name])
    else Os.perform (.unlink [name])

/-- A folder goes with all it holds, a file with its sidecar. As with `ensureFolders`, no limit of
a call stack is looked at when nested folders are removed. -/
def removePlace (p : Place) : Os Unit := do
  if ← Os.ask (·.isFolder p) then
    if p = [] then clear
    else
      Os.perform (.removeTree p)
      prune p.dropLast.reverse
  else
    match (Call.unlink p).exec (← get) with
    | .error .noEntry => pure ()
    | .error e => throw e
    | .ok t =>
      set t
      Os.allowing (· = .noEntry) (Os.perform (.unlink (sidecar p)))
      prune p.dropLast.reverse

def delete (path : String) : Action Tree Unit := do
  let p ← Action.ask fun _ => place? path
  (removePlace p).act

def setMetadata (path : String) (m : Texts) : Action Tree Unit := do
  let p ← Action.ask fun _ => place? path
  if ← (Os.ask (·.isFile p)).act then
    (Os.performAll [.create (sidecar p),
      .extend (sidecar p) (Bytes.utf8 (Json.ofTexts m).render)]).act
  else throw (.notFound path none)

def cleanTemporary : Os Unit := do
  let names := (← get).namesIn [temporaryFolder]
  names.forM fun name => Os.allowing (fun _ => true) (Os.perform (.unlink [temporaryFolder, name]))

def init : Action Tree Unit := do
  (makeFolders [temporaryFolder]).act
  cleanTemporary.act

inductive Planted
  | folder
  | file (content : Bytes)
  | link (target : String)

def plant (p : Place) (what : Planted) : Action Tree Unit := do
  (makeFolders p.dropLast).act
  (match what with
    | .folder => ensureFolder p
    | .file content => Os.performAll [.create p, .extend p content]
    | .link target => Os.perform (.makeLink p target)).act

def backend : Backend Tree where
  hierarchical := false
  init := init
  close := pure ()
  level := level
  folders := Tree.folderBound
  holds := holds
  entry? := entry?
  read := read
  write := write
  delete := delete
  setMetadata := setMetadata

end Depot.Storage.Disk
