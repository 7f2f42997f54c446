import Mathlib.Logic.Function.Basic
import DurableExecution.Wheel.TimingWheel

/-!
# Ticks, callbacks and runs of the wheel

The wheel in its world: the flags of the timers, which anyone who holds a timer may set, and the
callbacks. A callback may schedule timers on the wheel that runs it, and set flags. (In Rust it can
only set the flags of other timers: the wheel and the timer whose callback runs are borrowed.) What the
callback `k` does when it is called is `env k world`; since the world includes everything that has
happened so far, `env` may be any code.
-/

namespace DurableExecution

/-- What a callback does. -/
inductive Act (κ : Type) where
  | schedule (delay : ℕ) (callback : κ)
  | setCancelled (id : ℕ) (cancelled : Bool)

/-- The turn of a timer, when it is taken off the wheel, for the statements only. -/
structure Turn (κ : Type) where
  now : ℕ
  timer : Timer κ
  /-- The flag of the timer at its turn. -/
  cancelled : Bool
  size : ℤ
deriving DecidableEq

/-- A call of the callback of `timer` in the tick `now`. -/
structure Call (κ : Type) where
  now : ℕ
  timer : Timer κ
deriving DecidableEq

/-- The wheel and the timers in their world. -/
structure World (κ : Type) where
  wheel : HierarchicalTimingWheel κ
  cancelled : ℕ → Bool
  created : ℕ
  turns : List (Turn κ)
  calls : List (Call κ)

namespace World

variable {κ : Type}

def new (slotsPerWheel levels : ℕ) : World κ where
  wheel := .withConfig slotsPerWheel levels
  cancelled := fun _ => false
  created := 0
  turns := []
  calls := []

/-- The timer that is scheduled next. -/
def nextTimer (w : World κ) (delay : ℕ) (callback : κ) : Timer κ :=
  ⟨w.created, delay, w.wheel.now + delay, callback⟩

/-- Registers a timer `delay` ticks from now. -/
def register (w : World κ) (delay : ℕ) (callback : κ) : World κ :=
  let t := w.nextTimer delay callback
  { w with
    wheel := { w.wheel.place t with size := (w.wheel.place t).size + 1 }
    cancelled := Function.update w.cancelled t.id false
    created := w.created + 1 }

/-- `schedule`: a negative delay is rejected, otherwise the timer is registered and returned. -/
def schedule (w : World κ) (delay : ℤ) (callback : κ) : Except String (Timer κ × World κ) :=
  if delay < 0 then .error "delay must be >= 0"
  else .ok (w.nextTimer delay.toNat callback, w.register delay.toNat callback)

def setCancelled (w : World κ) (id : ℕ) (cancelled : Bool) : World κ :=
  { w with cancelled := Function.update w.cancelled id cancelled }

def act (w : World κ) : Act κ → World κ
  | .schedule delay callback => w.register delay callback
  | .setCancelled id cancelled => w.setCancelled id cancelled

def call (env : κ → World κ → List (Act κ)) (w : World κ) (t : Timer κ) : World κ :=
  let w := { w with calls := w.calls ++ [⟨w.wheel.now, t⟩] }
  (env t.callback w).foldl act w

/-- The turn of `t` in a tick that has fired `fired` timers so far: its callback runs unless it was
cancelled, and the timer is counted out of the size. -/
def turn (env : κ → World κ → List (Act κ)) : ℕ × World κ → Timer κ → ℕ × World κ
  | (fired, w), t =>
    let cancelled := w.cancelled t.id
    let (fired, w) := if cancelled then (fired, w) else (fired + 1, w.call env t)
    let size := w.wheel.size - 1
    (fired, { w with
      wheel := { w.wheel with size }
      turns := w.turns ++ [⟨w.wheel.now, t, cancelled, size⟩] })

/-- `tick`: the due timers of the current bucket take their turns, and at the end of a revolution
the overflow list is re-homed. Returns how many callbacks ran. -/
def tick (env : κ → World κ → List (Act κ)) (w : World κ) : ℕ × World κ :=
  let (due, wheel) := w.wheel.drain
  let (fired, w) := due.foldl (turn env) (0, { w with wheel })
  (fired, { w with wheel := w.wheel.endTick })

/-- The loop of `advance`: while `now < to`, increment the clock and tick. -/
def advanceLoop (env : κ → World κ → List (Act κ)) (target : ℤ) : ℕ → ℕ → World κ → ℕ × World κ
  | 0, fired, w => (fired, w)
  | n + 1, fired, w =>
    if w.wheel.now < target then
      let (more, w) := tick env { w with wheel := { w.wheel with now := w.wheel.now + 1 } }
      advanceLoop env target n (fired + more) w
    else (fired, w)

/-- `advance`: moves virtual time to `to`, and returns how many callbacks ran. -/
def advance (env : κ → World κ → List (Act κ)) (w : World κ) (target : ℤ) : ℕ × World κ :=
  advanceLoop env target (target - w.wheel.now).toNat 0 w

/-- The operations of the wheel. -/
inductive Op (κ : Type) where
  | schedule (delay : ℤ) (callback : κ)
  | setCancelled (id : ℕ) (cancelled : Bool)
  | advance (target : ℤ)

/-- One operation. A `schedule` that is rejected changes nothing. -/
def op (env : κ → World κ → List (Act κ)) (w : World κ) : Op κ → World κ
  | .schedule delay callback =>
    match w.schedule delay callback with
    | .ok (_, w) => w
    | .error _ => w
  | .setCancelled id cancelled => w.setCancelled id cancelled
  | .advance target => (w.advance env target).2

/-- Any sequence of operations. -/
def run (env : κ → World κ → List (Act κ)) (w : World κ) (ops : List (Op κ)) : World κ :=
  ops.foldl (op env) w

end World

end DurableExecution
