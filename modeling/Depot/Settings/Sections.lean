import Depot.Settings.Reading
import Depot.Yaml.Document

/-!
The sections of a settings document with their usual values and bounds, and the
reading of a whole document. Sections are read in a fixed order, and the first
one with a refused value ends the reading. A section that is no mapping counts
as empty, and so does a document that says nothing.
-/
namespace Depot.Settings

open Text (Loose)
open Yaml (Value)

structure Logging where
  level : Loose := "INFO"
  format : Loose := "text"
  /-- Levels of single loggers, in order. -/
  loggerLevels : List (Loose × Loose) := []

structure Listing where
  threads : Int := 10
  pageSize : Int := 1000

structure Polling where
  smallestDelay : Float := 0.1
  largestDelay : Float := 900.0
  maxBatch : Int := 1
  visibility : Float := 60.0

structure LargeMessage where
  threshold : Int := 262144
  keepInnerOpen : Bool := false
  folder : Loose := "message"

structure MemoryStore where
  limit : Int := 0
  persistence : Loose := "none"
  snapshotPath : Loose := "./data/memory.snap"
  interval : Int := 300
  hierarchical : Bool := false

structure DiskStore where
  root : Loose := "./data/objects"

structure Store where
  backend : Loose := "memory"
  memory : MemoryStore := {}
  disk : DiskStore := {}

structure Messaging where
  backend : Loose := "memory"
  visibility : Float := 60.0

end Settings

structure Settings where
  logging : Settings.Logging := {}
  listing : Settings.Listing := {}
  polling : Settings.Polling := {}
  largeMessage : Settings.LargeMessage := {}
  store : Settings.Store := {}
  messaging : Settings.Messaging := {}

namespace Settings

open Yaml (Value)

def Logging.read (entries : Entries) : Checked Logging :=
  let usual : Logging := {}
  Logging.mk <$> field entries "level" usual.level textOf
    <*> field entries "format" usual.format textOf
    <*> checkedField entries "logger_levels" usual.loggerLevels textMap

def Listing.read (entries : Entries) : Checked Listing :=
  let usual : Listing := {}
  Listing.mk <$> field entries "num_recursion_threads" usual.threads (atLeast 1)
    <*> field entries "page_size" usual.pageSize (atLeast 1)

def Polling.read (entries : Entries) : Checked Polling :=
  let usual : Polling := {}
  Polling.mk <$> field entries "min_delay" usual.smallestDelay positive
    <*> field entries "max_delay" usual.largestDelay positive
    <*> field entries "max_batch_size" usual.maxBatch (atLeast 1)
    <*> field entries "visibility" usual.visibility positive

def LargeMessage.read (entries : Entries) : Checked LargeMessage :=
  let usual : LargeMessage := {}
  LargeMessage.mk <$> field entries "threshold" usual.threshold (atLeast 0)
    <*> field entries "keep_inner_open" usual.keepInnerOpen boolOf
    <*> field entries "path_prefix" usual.folder textOf

def MemoryStore.read (entries : Entries) : Checked MemoryStore :=
  let usual : MemoryStore := {}
  MemoryStore.mk <$> field entries "max_size_bytes" usual.limit intOf
    <*> field entries "persistence" usual.persistence textOf
    <*> field entries "snapshot_path" usual.snapshotPath textOf
    <*> field entries "snapshot_interval_seconds" usual.interval intOf
    <*> field entries "hierarchical" usual.hierarchical boolOf

def DiskStore.read (entries : Entries) : Checked DiskStore :=
  let usual : DiskStore := {}
  DiskStore.mk <$> field entries "root_dir" usual.root textOf

/-- The parts of a store's section count as empty when they are no mappings. -/
def Store.read (entries : Entries) : Checked Store :=
  let usual : Store := {}
  Store.mk <$> field entries "backend" usual.backend textOf
    <*> (MemoryStore.read (sectionOf entries "memory")).under (.name "memory")
    <*> (DiskStore.read (sectionOf entries "local")).under (.name "local")

def Messaging.read (entries : Entries) : Checked Messaging :=
  let usual : Messaging := {}
  Messaging.mk <$> field entries "backend" usual.backend textOf
    <*> field entries "default_visibility" usual.visibility positive

def named (entries : Entries) : Entries :=
  entries.filter fun e => match e.1 with
    | .text _ => true
    | _ => false

def ofEntries? (entries : Entries) : Except Fault Settings := do
  let logging ← settle "LoggingConfig" (sectionOf entries "logging") Logging.read
  let listing ← settle "ListingConfig" (sectionOf entries "listing") Listing.read
  let polling ← settle "PollingConfig" (sectionOf entries "polling") Polling.read
  let largeMessage ←
    settle "LargeMessageConfig" (sectionOf entries "large_message") LargeMessage.read
  let store ← settle "StorageConfig" (named (sectionOf entries "storage")) Store.read
  let messaging ← settle "MessagingConfig" (sectionOf entries "messaging") Messaging.read
  return ⟨logging, listing, polling, largeMessage, store, messaging⟩

def ofValue? (v : Value) : Except Fault Settings :=
  match v with
  | .mapping entries => ofEntries? entries
  | v => if v.isEmpty then ofEntries? [] else .error .noSuchAttribute

def ofText? (text : String) : Except Fault Settings :=
  (Yaml.parse? text).bind ofValue?

def ofFile? : Option String → Except Fault Settings
  | some text => ofText? text
  | none => .error .missingFile

end Settings

end Depot
