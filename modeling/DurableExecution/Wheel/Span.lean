import DurableExecution.Wheel.Agenda

/-!
# Wheels with different spans

A wheel spans `slotsPerWheel * levels` ticks. A wider span delays the re-homing of far timers; this
is about what else can be seen of it. A near timer is given its bucket at once on every wheel that it
is near on. A far one has its place in the order of its tick from the revolution in which it is
re-homed, and may fire late, so it can tell two wheels apart.
-/

namespace DurableExecution

variable {κ : Type}

/-- Callbacks that do not touch the wheel. -/
def Callbacks.quiet : Callbacks κ := fun _ _ => []

/-- The act schedules no timer but one with a positive delay that is near for the spans `m` and `n`. -/
def Act.Near (m n : ℕ) : Act κ → Prop
  | .schedule delay _ => 0 < delay ∧ delay < m ∧ delay < n
  | .setCancelled _ _ => True

/-- Two views of which one has the calls in another order. Each call carries its tick, so the calls
of each tick are the same, and only their order is another one. -/
structure Visible.Reordered (v w : Visible κ) : Prop where
  now : v.now = w.now
  size : v.size = w.size
  cancelled : v.cancelled = w.cancelled
  created : v.created = w.created
  calls : v.calls.Perm w.calls

namespace World.Op

/-- The operation schedules no timer but one that is near for both spans, with a positive delay. A
negative delay is rejected. -/
def Near (m n : ℕ) : Op κ → Prop
  | .schedule delay _ => delay ≠ 0 ∧ delay < m ∧ delay < n
  | _ => True

/-- The clock after the operation. -/
def clock (now : ℕ) : Op κ → ℕ
  | .advance target => max now target.toNat
  | _ => now

/-- The operation schedules no timer that fires in different ticks on the wheels with the spans `m`
and `n`. -/
def FiresAlike (m n now : ℕ) : Op κ → Prop
  | .schedule delay callback =>
    let t : Timer κ := ⟨0, delay.toNat, now + delay.toNat, callback⟩
    delay < 0 ∨ t.fires m = t.fires n
  | _ => True

/-- None of the operations does, the first of them at `now`. -/
def AllFireAlike (m n : ℕ) : ℕ → List (Op κ) → Prop
  | _, [] => True
  | now, o :: ops => o.FiresAlike m n now ∧ AllFireAlike m n (o.clock now) ops

end World.Op

end DurableExecution
