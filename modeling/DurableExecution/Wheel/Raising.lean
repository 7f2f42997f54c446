import DurableExecution.Wheel.World

/-!
# Callbacks that raise

A callback may raise an exception (in Go, panic). It leaves `advance` through the middle of a tick:
the timers behind the one that raised have been taken off their bucket already, and the rest of the
tick is not done. The caller may catch the exception and go on with the wheel as it is.
-/

namespace DurableExecution

/-- An exception that has left `advance`. -/
structure Raised (κ : Type) where
  /-- The world as the exception leaves it. -/
  world : World κ
  /-- The timers that were due in the tick. -/
  due : List (Timer κ)
  /-- The timer whose callback raised. -/
  timer : Timer κ
  /-- The due timers that were to take their turns after it. -/
  behind : List (Timer κ)

namespace Raising

open World

variable {κ : Type}

/-- What the callback `k` does when it is called: its actions, and whether it raises after them. -/
abbrev Env (κ : Type) := κ → World κ → List (Act κ) × Bool

/-- The end of the turn of `t`: the timer is counted out of the size. -/
def countOut (w : World κ) (t : Timer κ) (cancelled : Bool) : World κ :=
  let size := w.wheel.size - 1
  { w with
    wheel := { w.wheel with size }
    turns := w.turns ++ [⟨w.wheel.now, t, cancelled, size⟩] }

/-- The turns of the due timers that are left, in a tick that has fired `fired` timers so far. -/
def turns (env : Env κ) (due : List (Timer κ)) :
    List (Timer κ) → ℕ → World κ → Except (Raised κ) (ℕ × World κ)
  | [], fired, w => .ok (fired, w)
  | t :: behind, fired, w =>
    if w.cancelled t.id then turns env due behind fired (countOut w t true)
    else
      let w := { w with calls := w.calls ++ [⟨w.wheel.now, t⟩] }
      let (acts, raises) := env t.callback w
      let w := acts.foldl act w
      if raises then .error ⟨w, due, t, behind⟩
      else turns env due behind (fired + 1) (countOut w t false)

/-- `tick`. -/
def tick (env : Env κ) (w : World κ) : Except (Raised κ) (ℕ × World κ) :=
  let (due, wheel) := w.wheel.drain
  match turns env due due 0 { w with wheel } with
  | .ok (fired, w) => .ok (fired, { w with wheel := w.wheel.endTick })
  | .error x => .error x

/-- The loop of `advance`. -/
def advanceLoop (env : Env κ) (target : ℤ) : ℕ → ℕ → World κ → Except (Raised κ) (ℕ × World κ)
  | 0, fired, w => .ok (fired, w)
  | n + 1, fired, w =>
    if w.wheel.now < target then
      match tick env { w with wheel := { w.wheel with now := w.wheel.now + 1 } } with
      | .ok (more, w) => advanceLoop env target n (fired + more) w
      | .error x => .error x
    else .ok (fired, w)

/-- `advance`. -/
def advance (env : Env κ) (w : World κ) (target : ℤ) : Except (Raised κ) (ℕ × World κ) :=
  advanceLoop env target (target - w.wheel.now).toNat 0 w

/-- The world between two operations. For the statements only: the timers whose callback raised, and
the timers that were to take their turns after one of these in the same tick. -/
structure State (κ : Type) where
  world : World κ
  raisers : List (Timer κ)
  dropped : List (Timer κ)

/-- The caller has caught `x` and goes on. -/
def State.caught (s : State κ) (x : Raised κ) : State κ :=
  ⟨x.world, s.raisers ++ [x.timer], s.dropped ++ x.behind⟩

/-- One operation. An exception is caught by the caller. -/
def op (env : Env κ) (s : State κ) : Op κ → State κ
  | .schedule delay callback =>
    match s.world.schedule delay callback with
    | .ok (_, w) => { s with world := w }
    | .error _ => s
  | .setCancelled id cancelled => { s with world := s.world.setCancelled id cancelled }
  | .advance target =>
    match advance env s.world target with
    | .ok (_, w) => { s with world := w }
    | .error x => s.caught x

/-- Any sequence of operations. -/
def run (env : Env κ) (s : State κ) (ops : List (Op κ)) : State κ := ops.foldl (op env) s

def new (slotsPerWheel levels : ℕ) : State κ := ⟨.new slotsPerWheel levels, [], []⟩

/-! ## What an exception should leave -/

/-- The end of `advance`, had the callback that raised `x` returned: the timer is counted out, the
others take their turns, the tick ends, and the loop goes on. -/
def resumed (env : Env κ) (target : ℤ) (x : Raised κ) : Except (Raised κ) (ℕ × World κ) :=
  match turns env x.due x.behind 0 (countOut x.world x.timer false) with
  | .ok (_, w) => advance env { w with wheel := w.wheel.endTick } target
  | .error y => .error y

/-- The timer `t` runs in the tick `n` of a run. -/
def RunsIn (w : World κ) (t : Timer κ) (n : ℕ) : Prop := ⟨n, t⟩ ∈ w.calls

/-- Every other timer that was due in the tick was cancelled at its turn or is cancelled now, or has
run, or is on the wheel and will run in later calls of `advance`. -/
def DueKept (env : Env κ) (s : State κ) (x : Raised κ) : Prop :=
  ∀ t ∈ x.due, t ≠ x.timer →
    ((∃ y ∈ x.world.turns, y.timer = t ∧ y.cancelled = true) ∨ x.world.cancelled t.id = true) ∨
    (∃ n, RunsIn x.world t n) ∨
    t ∈ x.world.wheel.held ∧ ∃ targets : List ℤ, ∃ n,
      RunsIn (run env (s.caught x) (targets.map .advance)).world t n

/-- The wheel is not damaged by the exception `x`, which has left `advance` to `target` in the state
`s`. -/
structure Undamaged (env : Env κ) (target : ℤ) (s : State κ) (x : Raised κ) : Prop where
  /-- The size is the number of timers on the wheel. -/
  size : x.world.wheel.size = x.world.wheel.held.length
  /-- No other timer that was due is lost. -/
  due : DueKept env s x
  /-- No timer runs twice. -/
  once : ∀ ops, ((run env (s.caught x) ops).world.calls.map (·.timer.id)).Nodup
  /-- When the caller advances to the same time again, the timers that were not due in the tick run
  in the same ticks as if the callback had returned. -/
  others : ∀ fired w, resumed env target x = .ok (fired, w) → ∀ t ∈ x.world.wheel.held, t ∉ x.due →
    ∀ ops n,
      RunsIn (run env (s.caught x) (.advance target :: ops)).world t n ↔
        RunsIn (run env { s with world := w } ops).world t n

end Raising

end DurableExecution
