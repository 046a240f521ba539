import Depot.Channel.Queue

/-!
A receiver of one channel. Messages that were received are confirmed, which
deletes them, or moved to a dead-letter channel with the reason on them.
-/
namespace Depot.Channel

def deadLetterSuffix : String := "-deadletter"

def reasonProperty : String := "dead-letter-reason"

def errorProperty : String := "dead-letter-error"

structure Receiver where
  channel : String
  window : Window
  deadLetterChannel : String
  maxBatch : Nat
  maxBatch_pos : 0 < maxBatch

namespace Receiver

def usualMaxBatch : Int := 1

def create? (channel : String) (window : Window) (suffix : String) (maxBatch : Int) :
    Except Fault Receiver :=
  if h : maxBatch < 1 then .error (.batchTooSmall maxBatch)
  else .ok ⟨channel, window, channel ++ suffix, maxBatch.toNat, by omega⟩

def name (r : Receiver) : String := r.channel

def receive (r : Receiver) (now : Calendar.Instant) (batch : Int) (c : Channels) :
    Except Fault (List Message × Channels) :=
  c.receive now r.channel batch (some r.window)

def count (r : Receiver) (c : Channels) : Nat := c.count r.channel

def peek (r : Receiver) (now : Calendar.Instant) (count : Int) (c : Channels) : List Message :=
  c.peek now r.channel count

def confirm (r : Receiver) (ids : List String) (c : Channels) : Channels := c.delete r.channel ids

def dead (m : Message) (reason description : String) : Message :=
  (({ m with visibleAt := none } : Message).setProperty reasonProperty reason).setProperty
    errorProperty description

/-- Sends the marked copy before the received message is deleted, so that none is lost. -/
def deadLetter (r : Receiver) (m : Message) (reason description : String) (c : Channels) :
    Except Fault Channels := do
  let c ← c.send r.deadLetterChannel [dead m reason description]
  return c.delete r.channel [m.id]

end Receiver

end Depot.Channel
