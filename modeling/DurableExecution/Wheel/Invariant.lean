import DurableExecution.Wheel.World

/-!
# The invariant of the wheel

In which tick a timer fires is settled when it is scheduled: `Timer.fires`. A timer in a bucket
fires when the wheel comes to the bucket next; a timer in the overflow list has its deadline in a
later revolution. Within a tick, the timers that were taken off the current bucket and still wait
for their turn are *pending*.
-/

namespace DurableExecution

variable {κ : Type}

/-- How many revolutions are complete at the end of the tick `n`. -/
def revolution (slots n : ℕ) : ℕ := (n + 1) / slots

namespace Timer

/-- The timers that fire one revolution after their deadline: those with delay 0, and those from the
overflow list whose deadline is the last tick of a revolution, since they are re-homed in that tick
after its bucket was drained. -/
def Late (slots : ℕ) (t : Timer κ) : Prop :=
  t.delay = 0 ∨ slots ≤ t.delay ∧ (t.deadline + 1) % slots = 0

instance (slots : ℕ) (t : Timer κ) : Decidable (t.Late slots) :=
  inferInstanceAs (Decidable (_ ∨ _))

/-- The tick in which the timer fires. -/
def fires (slots : ℕ) (t : Timer κ) : ℕ := if t.Late slots then t.deadline + slots else t.deadline

/-- What holds of a timer in bucket `i` when the clock shows `now`, and re-homing was done for the
revolutions up to `edge`. -/
structure InBucket (slots now edge i : ℕ) (t : Timer κ) : Prop where
  slot : t.deadline % slots = i
  after : now < t.fires slots
  soon : t.fires slots ≤ now + slots
  inRange : t.deadline < now + slots
  rehomed : slots ≤ t.delay → revolution slots t.deadline ≤ edge

/-- What holds of a timer in the overflow list. -/
structure InOverflow (slots edge : ℕ) (t : Timer κ) : Prop where
  far : slots ≤ t.delay
  waits : edge < revolution slots t.deadline

end Timer

namespace World

/-- Every timer that was ever scheduled: on the wheel, pending, or gone. -/
def timers (w : World κ) (pending : List (Timer κ)) : List (Timer κ) :=
  w.wheel.held ++ (pending ++ w.turns.map (·.timer))

/-- The invariant. Between ticks nothing is pending, and `edge` is the revolution of the clock. -/
structure Inv (w : World κ) (pending : List (Timer κ)) (edge : ℕ) : Prop where
  pos : 0 < w.wheel.slots
  edge_le : edge ≤ revolution w.wheel.slots w.wheel.now
  bucket : ∀ i, ∀ t ∈ w.wheel.bucket i, t.InBucket w.wheel.slots w.wheel.now edge i
  overflow : ∀ t ∈ w.wheel.overflow, t.InOverflow w.wheel.slots edge
  due : ∀ t ∈ pending, t.fires w.wheel.slots = w.wheel.now
  turns : ∀ x ∈ w.turns, x.now = x.timer.fires w.wheel.slots ∧ x.now ≤ w.wheel.now ∧ 0 ≤ x.size
  ids : ((w.timers pending).map (·.id)).Perm (List.range w.created)
  size : w.wheel.size = (w.wheel.held.length + pending.length : ℕ)

/-- The calls of the callbacks of timers that were not cancelled at their turn. -/
def callsIn (turns : List (Turn κ)) : List (Call κ) :=
  (turns.filter fun x => !x.cancelled).map fun x => ⟨x.now, x.timer⟩

/-- The invariant between ticks. -/
def Ok (w : World κ) : Prop := w.Inv [] (revolution w.wheel.slots w.wheel.now)

end World

end DurableExecution
