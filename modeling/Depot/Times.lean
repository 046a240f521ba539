import Depot.Calendar

/-!
When things were last modified. The clock is left open: what holds whatever it reads holds of
the clock that a program finds.
-/
namespace Depot

structure Times (κ : Type) where
  last : κ → Calendar.Instant
  /-- The readings that are still to come. -/
  clock : Nat → Calendar.Instant

namespace Times

variable {κ : Type}

def still : Times κ := ⟨fun _ => 0, fun _ => 0⟩

variable [DecidableEq κ]

def set (t : Times κ) (k : κ) (i : Calendar.Instant) : Times κ :=
  { t with last := fun j => if j = k then i else t.last j }

/-- Dates something from the next reading. -/
def stamp (t : Times κ) (k : κ) : Times κ :=
  { t.set k (t.clock 0) with clock := fun n => t.clock (n + 1) }

/-- Dating something as it is dated already changes nothing. -/
@[simp] theorem set_last (t : Times κ) (k : κ) : t.set k (t.last k) = t := by
  have hlast : (t.set k (t.last k)).last = t.last := by
    funext j
    by_cases h : j = k <;> simp [set, h]
  exact congrArg (Times.mk · t.clock) hlast

theorem last_stamp_ne (t : Times κ) {j k : κ} (h : j ≠ k) : (t.stamp k).last j = t.last j :=
  if_neg h

end Times

end Depot
