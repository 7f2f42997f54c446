import Mathlib.Data.Int.Notation
import Mathlib.Data.Nat.Notation
import DurableExecution.Library.Buckets

/-!
# The timing wheel

The data of the hashed timing wheel: a bucket for each tick of one revolution, and an overflow list
for the timers that are further out. Virtual time starts at 0 and is only incremented, so times are
natural numbers; `deadline - now < slots` is written without the subtraction.
-/

namespace DurableExecution

/-- One scheduled timer. It is shared with the caller, who may cancel it, so `id` names the object
and its flag is part of the world (`World.cancelled`). `delay` is what it was scheduled with; only
the statements use it. -/
structure Timer (κ : Type) where
  id : ℕ
  delay : ℕ
  deadline : ℕ
  callback : κ
deriving DecidableEq, Repr

/-- `slots` buckets, each covering one tick of virtual time. -/
structure HierarchicalTimingWheel (κ : Type) where
  slots : ℕ
  buckets : List (List (Timer κ))
  overflow : List (Timer κ)
  now : ℕ
  size : ℤ
  length_buckets : buckets.length = slots

namespace HierarchicalTimingWheel

variable {κ : Type}

/-- Builds a wheel spanning `slotsPerWheel * levels` ticks. `levels` below 1 is treated as 1. -/
def withConfig (slotsPerWheel levels : ℕ) : HierarchicalTimingWheel κ where
  slots := slotsPerWheel * max levels 1
  buckets := List.replicate (slotsPerWheel * max levels 1) []
  overflow := []
  now := 0
  size := 0
  length_buckets := List.length_replicate

/-- The timers in bucket `i`. -/
def bucket (w : HierarchicalTimingWheel κ) (i : ℕ) : List (Timer κ) := Buckets.get w.buckets i

/-- All timers on the wheel, each at its place. -/
def held (w : HierarchicalTimingWheel κ) : List (Timer κ) := w.buckets.flatten ++ w.overflow

/-- Appends a timer to its bucket. -/
def push (w : HierarchicalTimingWheel κ) (t : Timer κ) : HierarchicalTimingWheel κ :=
  { w with
    buckets := Buckets.push w.buckets (t.deadline % w.slots) t
    length_buckets := by rw [Buckets.length_push, w.length_buckets] }

/-- Puts a timer into its bucket if it is due within one revolution, and into the overflow list
otherwise. -/
def place (w : HierarchicalTimingWheel κ) (t : Timer κ) : HierarchicalTimingWheel κ :=
  if t.deadline < w.now + w.slots then w.push t else { w with overflow := w.overflow ++ [t] }

/-- The timers of the current bucket that are due, and the wheel with the others left in it. -/
def drain (w : HierarchicalTimingWheel κ) : List (Timer κ) × HierarchicalTimingWheel κ :=
  let slot := w.now % w.slots
  let due := (w.bucket slot).filter fun t => t.deadline ≤ w.now
  let keep := (w.bucket slot).filter fun t => w.now < t.deadline
  (due, { w with
    buckets := Buckets.replace w.buckets slot keep
    length_buckets := by rw [Buckets.length_replace, w.length_buckets] })

/-- Pulls the overflow timers that have come into range back onto the wheel: they are taken one by
one, and those still out of range are collected again. -/
def rehome (w : HierarchicalTimingWheel κ) : HierarchicalTimingWheel κ :=
  w.overflow.foldl (fun w t => w.place t) { w with overflow := [] }

/-- The end of a tick: each time the wheel completes a revolution, the overflow list is re-homed. -/
def endTick (w : HierarchicalTimingWheel κ) : HierarchicalTimingWheel κ :=
  if w.now % w.slots = w.slots - 1 ∧ w.overflow ≠ [] then w.rehome else w

end HierarchicalTimingWheel

end DurableExecution
