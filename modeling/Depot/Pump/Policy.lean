import Depot.Fault

/-!
Waiting times between empty polls. The first wait is the smallest; each further
one is the one before it times a factor, but never more than the largest. The
numbers are any type with a product and an order, such as doubles or rationals.
-/
namespace Depot.Pump

class Delays (π : Type) (τ : outParam Type) where
  advance : π → τ × π
  reset : π → π

structure Policy (α : Type) where
  smallest : α
  largest : α
  factor : α
  /-- The last wait handed out since the start or the last reset. -/
  current : Option α
  deriving Repr

namespace Policy

variable {α : Type} [LE α] [LT α] [DecidableLE α] [DecidableLT α] [Mul α] [OfNat α 0] [OfNat α 1]

def smaller (a b : α) : α := if b < a then b else a

def create? (written : α → String) (smallest largest factor : α) : Except Fault (Policy α) :=
  if smallest ≤ 0 then .error (.delayNotPositive (written smallest))
  else if largest < smallest then .error (.delaysOutOfOrder (written largest) (written smallest))
  else if factor < 1 then .error (.factorTooSmall (written factor))
  else .ok ⟨smallest, largest, factor, none⟩

def nextWait (p : Policy α) : α :=
  match p.current with
  | none => p.smallest
  | some d => smaller (d * p.factor) p.largest

def advance (p : Policy α) : α × Policy α := (p.nextWait, { p with current := some p.nextWait })

def reset (p : Policy α) : Policy α := { p with current := none }

instance : Delays (Policy α) α := ⟨advance, reset⟩

end Policy

def defaultSmallest : Float := 0.1
def defaultLargest : Float := 900.0
def defaultFactor : Float := 2.0

end Depot.Pump
