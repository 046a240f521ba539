import Depot.Channel.Receiver
import Depot.Pump.Timeline

/-!
A channel as the source of a pump. Seconds since the start of the pump's clock
are instants of the calendar, and a poll takes no time.
-/
namespace Depot.Channel

def clock (start : Calendar.Instant) (seconds : Float) : Except Fault Calendar.Instant := do
  after? start (← Window.ofSeconds? seconds)

def Receiver.poll (r : Receiver) (start : Calendar.Instant) (now : Float) (batch : Nat)
    (c : Channels) : Pump.Poll Message × Channels :=
  match do r.receive (← clock start now) batch c with
  | .ok (messages, c) => (.batch messages, c)
  | .error _ => (.failed, c)

end Depot.Channel
