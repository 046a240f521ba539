import Depot.Channel.Offload
import Depot.Channel.Receiver
import Depot.Pump.Turn
import Depot.Settings.Sections
import Depot.Storage.Memory.Backend

/-!
What is made from settings: a store, channels, a receiver with its pump,
offloading, and the options of a listing. A section that passed its own checks
may still be refused here.
-/
namespace Depot.Settings

inductive ChosenStore
  | memory (settings : Storage.Memory.Config)
  | disk (root : String)

def MemoryStore.chosen? (m : MemoryStore) : Except Fault Storage.Memory.Config := do
  let persistence ← Storage.Memory.Persistence.ofName? m.persistence.lossy
  return ⟨m.hierarchical, m.limit, persistence, m.snapshotPath.lossy, m.interval⟩

def Store.chosen? (s : Store) : Except Fault ChosenStore :=
  if s.backend = "memory" then s.memory.chosen?.map .memory
  else if s.backend = "local" then .ok (.disk s.disk.root.lossy)
  else .error (.unknownStorage s.backend.lossy)

def Messaging.channels? (m : Messaging) : Except Fault Channel.Channels :=
  if m.backend = "memory" then (Channel.Window.ofSeconds? m.visibility).map .empty
  else .error (.unknownMessaging m.backend.lossy)

def Polling.policy? (p : Polling) : Except Fault (Pump.Policy Float) :=
  Pump.Policy.create? Decimal.floatText p.smallestDelay p.largestDelay Pump.defaultFactor

def Polling.receiver? (p : Polling) (channel : String) :
    Except Fault (Channel.Receiver × Pump (Pump.Policy Float)) := do
  let window ← Channel.Window.ofSeconds? p.visibility
  let policy ← p.policy?
  let receiver ← Channel.Receiver.create? channel window Channel.deadLetterSuffix p.maxBatch
  let pump ← Pump.create? receiver.name policy p.maxBatch
  return (receiver, pump)

def LargeMessage.offload? (l : LargeMessage) : Except Fault Channel.Offload :=
  Channel.Offload.create? true true l.threshold (Channel.randomPath (some l.folder.lossy))
    l.keepInnerOpen

def Listing.defaults (l : Listing) : Storage.ListingDefaults := ⟨l.threads, l.pageSize⟩

def Listing.options? (l : Listing) : Except Fault Depot.Listing.Options := l.defaults.options

end Depot.Settings
