import Depot.Calendar
import Depot.Entry
import Depot.Text.Codec

/-!
Message envelopes: a payload, an identity, and ordered text properties. A
received message carries when it becomes visible again and how often it was
received.
-/
namespace Depot

structure Message where
  content : Bytes
  id : String
  properties : Texts
  visibleAt : Option Calendar.Instant
  dequeues : Option Int

namespace Message

def offloadProperty : String := "x-sn-large"

def idOfBits (bits : Nat) : String := String.ofList (Text.hexDigits 32 bits)

def fresh (bits : Nat) (content : Bytes) (properties : Texts) : Message :=
  ⟨content, idOfBits bits, properties, none, none⟩

def ofText (bits : Nat) (text : String) (properties : Texts) : Message :=
  fresh bits (Bytes.utf8 text) properties

def takenNames : List String := ["cls", "text"]

def ofText? (bits : Nat) (text : String) (properties : Texts) : Except Fault Message :=
  if takenNames.any properties.contains then .error .wrongType
  else .ok (ofText bits text properties)

def text? (m : Message) : Option String := Text.Codec.utf8.decode? m.content

def isOffloaded (m : Message) : Bool := m.properties.contains offloadProperty

def setProperty (m : Message) (key value : String) : Message :=
  { m with properties := m.properties.insert key value }

end Message

end Depot
