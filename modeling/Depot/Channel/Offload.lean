import Depot.Channel.Queue
import Depot.Storage.Facade

/-!
Sending large payloads through a storage. Payloads above a threshold are
written to the storage, in any order; what is forwarded in their place has no
content and tells where the payload is. Nothing is forwarded unless every
payload of the batch was stored.
-/
namespace Depot.Channel

abbrev PathGenerator := Message → Nat → Except Fault String

/-- Random identities in groups of 8, 4, 4, 4 and 12 digits; the version and the
variant are fixed digits among them. -/
def uuidText (bits : Nat) : String :=
  let ds := Text.hexDigits 32 bits
  let variant := Nat.digitChar (8 + bits / Nat.pow 2 62 % 4)
  String.ofList (ds.take 8 ++ '-' :: (ds.drop 8).take 4 ++ '-' :: '4' :: (ds.drop 13).take 3
    ++ '-' :: variant :: (ds.drop 17).take 3 ++ '-' :: ds.drop 20)

def usualFolder : String := "message"

def randomPath (folder : Option String) : PathGenerator := fun _ bits =>
  .ok (Path.combine [folder, some (uuidText bits)])

structure Offload where
  threshold : Nat
  generator : PathGenerator
  keepInnerOpen : Bool

namespace Offload

def create? (hasInner hasStorage : Bool) (threshold : Int) (generator : PathGenerator)
    (keepInnerOpen : Bool) : Except Fault Offload :=
  if !hasInner then .error .innerChannelMissing
  else if !hasStorage then .error .storageMissing
  else if threshold < 0 then .error (.negativeThreshold threshold)
  else .ok ⟨threshold.toNat, generator, keepInnerOpen⟩

def isLarge (o : Offload) (m : Message) : Bool := o.threshold < m.content.length

def envelope (m : Message) (path : String) : Message :=
  ({ m with content := [] } : Message).setProperty Message.offloadProperty (Path.normalize path)

inductive Progress
  | pending
  | ready (m : Message)
  | failed (f : Fault)

structure Dispatch where
  channel : String
  messages : List Message
  progress : List Progress
  /-- The first failure in time. -/
  failure : Option Fault

def dispatch (channel : String) (messages : List Message) : Dispatch :=
  ⟨channel, messages, messages.map fun _ => .pending, none⟩

structure Store (σ : Type) where
  storage : σ
  bits : Nat
  counters : Counters

variable {σ : Type}

def prepare (o : Offload) (b : Storage.Backend σ) (m : Message) (s : Store σ) :
    Except Fault Message × Store σ :=
  if o.isLarge m then
    let after : Store σ := { s with bits := s.bits + 1 }
    match o.generator m s.bits with
    | .error f => (.error f, after)
    | .ok path =>
      let (stored, storage) := (b.store (some path) m.content false).runFrom s.storage
      match stored with
      | .error f => (.error f, { after with storage := storage })
      | .ok _ =>
        (.ok (envelope m path),
          { after with storage := storage, counters := s.counters.addOffload m.content.length })
  else (.ok m, s)

def settle (d : Dispatch) (i : Nat) (r : Except Fault Message) : Dispatch :=
  match r with
  | .ok m => { d with progress := d.progress.set i (.ready m) }
  | .error f =>
    { d with progress := d.progress.set i (.failed f), failure := d.failure.or (some f) }

def readyMessage? : Progress → Option Message
  | .ready m => some m
  | _ => none

def outcome? (d : Dispatch) : Option (Except Fault (List Message)) :=
  match d.failure with
  | some f => some (.error f)
  | none => (d.progress.mapM readyMessage?).map .ok

def prepareInOrder (o : Offload) (b : Storage.Backend σ) :
    List (Nat × Message) → Dispatch × Store σ → Dispatch × Store σ
  | [], state => state
  | (i, m) :: rest, (d, s) =>
    let (r, s) := o.prepare b m s
    prepareInOrder o b rest (settle d i r, s)

def send (o : Offload) (b : Storage.Backend σ) (channel : String) (messages : List Message)
    (s : Store σ) (c : Channels) : Except Fault Channels × Store σ :=
  let indexed := (List.range messages.length).zip messages
  let (d, s) := prepareInOrder o b indexed (dispatch channel messages, s)
  match outcome? d with
  | some (.ok envelopes) => (c.send channel envelopes, s)
  | some (.error f) => (.error f, s)
  | none => (.ok c, s)

def backendName : String := "LargeMessageChannel"

def unsupported (operation : String) : Fault := .unsupported operation backendName

/-- Leaves the inner channel open when another owner shares it. -/
def close (o : Offload) (c : Channels) : Channels := if o.keepInnerOpen then c else c.close

end Offload

end Depot.Channel
