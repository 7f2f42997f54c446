import DurableExecution.Library.Amortized
import DurableExecution.Wheel.World

/-!
# The work of the wheel

How many timers the wheel looks at. A `schedule` appends one timer to one list. A tick looks at the
timers of its bucket and, at the end of a revolution, at the timers of the overflow list.
-/

namespace DurableExecution

variable {κ : Type}

namespace World

/-- How many timers a tick looks at. The callbacks run before it comes to the overflow list. -/
def tickLooks (env : κ → World κ → List (Act κ)) (w : World κ) : ℕ :=
  let bucket := w.wheel.bucket (w.wheel.now % w.wheel.slots)
  let (due, wheel) := w.wheel.drain
  let (_, w) := due.foldl (turn env) (0, { w with wheel })
  bucket.length + if w.wheel.now % w.wheel.slots = w.wheel.slots - 1 then w.wheel.overflow.length else 0

/-- The loop of `advance`. -/
def advanceLooks (env : κ → World κ → List (Act κ)) (target : ℤ) : ℕ → World κ → ℕ
  | 0, _ => 0
  | n + 1, w =>
    if w.wheel.now < target then
      let w := { w with wheel := { w.wheel with now := w.wheel.now + 1 } }
      tickLooks env w + advanceLooks env target n (tick env w).2
    else 0

/-- How many timers an operation looks at. -/
def opLooks (env : κ → World κ → List (Act κ)) (w : World κ) : Op κ → ℕ
  | .schedule _ _ => 0
  | .setCancelled _ _ => 0
  | .advance target => advanceLooks env target (target - w.wheel.now).toNat w

/-- How many timers all operations of a run look at. -/
def runLooks (env : κ → World κ → List (Act κ)) (w : World κ) (ops : List (Op κ)) : ℕ :=
  Amortized.totalWork (op env) (opLooks env) w ops

end World

/-- How often the wheel looks at a timer at most: once in its bucket, and a far one also once for each
revolution that it waits. -/
def Timer.looks (slots : ℕ) (t : Timer κ) : ℕ :=
  if t.delay < slots then 1 else t.delay / slots + 2

end DurableExecution
