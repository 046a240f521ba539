import Depot.Listing.Timeline
import Depot.Pump.Turn

/-!
Counts of what listings, pumps and offloading did.
-/
namespace Depot

structure Counters where
  localCalls : Nat := 0
  hierarchyCalls : Nat := 0
  entriesListed : Nat := 0
  pollsWithMessages : Nat := 0
  pollsEmpty : Nat := 0
  pollsFailed : Nat := 0
  messagesOffloaded : Nat := 0
  bytesOffloaded : Nat := 0
  deriving DecidableEq, Repr

namespace Counters

/-- Started calls count even when the listing fails; entries only when it succeeds. -/
def addListing (c : Counters) (r : Listing.Report) : Counters :=
  let listed := match r.answer with
    | .ok entries => entries.length
    | .error _ => 0
  { c with
    localCalls := c.localCalls + (if r.native then 0 else r.calls.length)
    hierarchyCalls := c.hierarchyCalls + (if r.native then r.calls.length else 0)
    entriesListed := c.entriesListed + listed }

def addPoll (c : Counters) : Pump.Outcome → Counters
  | .messages => { c with pollsWithMessages := c.pollsWithMessages + 1 }
  | .empty => { c with pollsEmpty := c.pollsEmpty + 1 }
  | .error => { c with pollsFailed := c.pollsFailed + 1 }

def addTurn {τ β : Type} (c : Counters) (events : List (Pump.Event τ β)) : Counters :=
  events.foldl (fun c e => match e with
    | .counted outcome => c.addPoll outcome
    | _ => c) c

def addOffload (c : Counters) (bytes : Nat) : Counters :=
  { c with
    messagesOffloaded := c.messagesOffloaded + 1
    bytesOffloaded := c.bytesOffloaded + bytes }

def rows (c : Counters) : List (String × Nat) :=
  [("polystore_list_calls_total\x7blocal\x7d", c.localCalls),
    ("polystore_list_calls_total\x7bhierarchy\x7d", c.hierarchyCalls),
    ("polystore_entries_listed_total", c.entriesListed),
    ("polystore_polls_total\x7bmessages\x7d", c.pollsWithMessages),
    ("polystore_polls_total\x7bempty\x7d", c.pollsEmpty),
    ("polystore_polls_total\x7berror\x7d", c.pollsFailed),
    ("polystore_messages_externalized_total", c.messagesOffloaded),
    ("polystore_bytes_externalized_total", c.bytesOffloaded)]

end Counters

end Depot
