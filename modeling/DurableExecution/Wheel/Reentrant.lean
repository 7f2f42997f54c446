import DurableExecution.Library.System
import DurableExecution.Wheel.Invariant
import DurableExecution.Wheel.Raising

/-!
# Callbacks that advance the wheel

Everywhere but in Rust a callback holds the wheel that runs it, so it may call `advance` again, and
the callbacks of that call may do so, too. Here is the wheel in small steps, with the calls of
`advance` that are in progress. The code of the wheel is not interrupted except where it calls a
callback: there anything may happen, until the callback returns or raises an exception.
-/

namespace DurableExecution

/-- Where a call of `advance` is. -/
inductive Place (κ : Type) where
  /-- At the test `now < to`. -/
  | test
  /-- In a tick that has drained the bucket at `slot`: the timers of `due` wait for their turns. -/
  | tick (slot : ℕ) (due : List (Timer κ))
  /-- In the callback of `t`. -/
  | callback (slot : ℕ) (t : Timer κ) (due : List (Timer κ))

namespace Place

variable {κ : Type}

/-- The bucket of the tick in progress. -/
def slot : Place κ → Option ℕ
  | test => none
  | tick slot _ => some slot
  | callback slot _ _ => some slot

/-- The timers that are taken off the wheel and not counted out. -/
def pending : Place κ → List (Timer κ)
  | test => []
  | tick _ due => due
  | callback _ t due => t :: due

/-- The timer whose callback is running. -/
def running : Place κ → List (Timer κ)
  | callback _ t _ => [t]
  | _ => []

end Place

/-- A call of `advance` in progress. -/
structure Advance (κ : Type) where
  target : ℤ
  fired : ℕ
  place : Place κ

/-- The end of a tick that has drained the bucket at `slot`. The clock may show a later time by
now. -/
def HierarchicalTimingWheel.endTickAt {κ : Type} (w : HierarchicalTimingWheel κ) (slot : ℕ) :
    HierarchicalTimingWheel κ :=
  if slot = w.slots - 1 ∧ w.overflow ≠ [] then w.rehome else w

/-- The wheel in its world, and the calls of `advance` in progress, the innermost first. For the
statements only: the timers that were taken off the wheel, each with its tick, the timers whose
callback raised, the timers that were to take their turns after one of these, and what the calls of
`advance` have returned. -/
structure Reentrant (κ : Type) where
  world : World κ
  advances : List (Advance κ)
  taken : List (ℕ × Timer κ)
  raisers : List (Timer κ)
  dropped : List (Timer κ)
  returned : List ℕ

/-- What can happen next. -/
inductive ReentrantAct (κ : Type) where
  /-- A callback, or code that the wheel has not called, schedules a timer or sets a flag. -/
  | act (a : Act κ)
  /-- It calls `advance`. -/
  | advance (target : ℤ)
  /-- The callback raises an exception, which leaves the innermost `advance`. -/
  | raise
  /-- The innermost `advance` goes on; in a callback, this means that the callback returns. -/
  | goOn

namespace Reentrant

variable {κ : Type}

def new (slotsPerWheel levels : ℕ) : Reentrant κ :=
  ⟨.new slotsPerWheel levels, [], [], [], [], []⟩

/-- The code that is running is not that of the wheel. -/
def outside (s : Reentrant κ) : Bool :=
  match s.advances with
  | [] => true
  | a :: _ => !a.place.running.isEmpty

/-- The innermost `advance` goes on by one step. -/
def goOn (s : Reentrant κ) (a : Advance κ) (outer : List (Advance κ)) : Reentrant κ :=
  match a.place with
  | .test =>
    if s.world.wheel.now < a.target then
      let wheel := { s.world.wheel with now := s.world.wheel.now + 1 }
      let due := wheel.drain.1
      { s with
        world := { s.world with wheel := wheel.drain.2 }
        advances := { a with place := .tick (wheel.now % wheel.slots) due } :: outer
        taken := s.taken ++ due.map fun t => (wheel.now, t) }
    else { s with advances := outer, returned := s.returned ++ [a.fired] }
  | .tick slot [] =>
    { s with
      world := { s.world with wheel := s.world.wheel.endTickAt slot }
      advances := { a with place := .test } :: outer }
  | .tick slot (t :: due) =>
    if s.world.cancelled t.id then
      { s with
        world := Raising.countOut s.world t true
        advances := { a with place := .tick slot due } :: outer }
    else
      { s with
        world := { s.world with calls := s.world.calls ++ [⟨s.world.wheel.now, t⟩] }
        advances := { a with place := .callback slot t due } :: outer }
  | .callback slot t due =>
    { s with
      world := Raising.countOut s.world t false
      advances := { a with fired := a.fired + 1, place := .tick slot due } :: outer }

def next (s : Reentrant κ) : ReentrantAct κ → Option (Reentrant κ)
  | .act a => if s.outside then some { s with world := s.world.act a } else none
  | .advance target =>
    if s.outside then some { s with advances := ⟨target, 0, .test⟩ :: s.advances } else none
  | .raise =>
    match s.advances with
    | ⟨_, _, .callback _ t due⟩ :: outer => some { s with
        advances := outer
        raisers := s.raisers ++ [t]
        dropped := s.dropped ++ due }
    | _ => none
  | .goOn =>
    match s.advances with
    | [] => none
    | a :: outer => some (s.goOn a outer)

/-- The timers that are taken off the wheel and not counted out. -/
def pending (s : Reentrant κ) : List (Timer κ) := s.advances.flatMap fun a => a.place.pending

/-- The timers whose callbacks are running. -/
def running (s : Reentrant κ) : List (Timer κ) := s.advances.flatMap fun a => a.place.running

/-- The timers that exceptions have left without a turn, or in the middle of it. -/
def lost (s : Reentrant κ) : List (Timer κ) := s.raisers ++ s.dropped

end Reentrant

end DurableExecution
