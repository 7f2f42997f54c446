import Mathlib.Data.Prod.Lex
import DurableExecution.Library.Answers
import DurableExecution.Library.StableQueue
import DurableExecution.Wheel.Invariant

/-!
# The agenda

What the wheel is for, and what a heap would do: one stable priority queue. A timer is given its
place when it is scheduled and is never moved again; there are no buckets, no overflow list and no
re-homing. The place is behind all timers that fire earlier, or in the same tick with no greater
*rank*. The rank says when the wheel takes the timer into its bucket: a near timer at once, and a far
one at the end of the last revolution that is completed up to its deadline.

A callback may depend on all that has happened, but not on where the wheel keeps its timers.
-/

namespace DurableExecution

variable {κ : Type}

/-- The world without the places of the timers. -/
structure Visible (κ : Type) where
  now : ℕ
  size : ℤ
  cancelled : ℕ → Bool
  created : ℕ
  turns : List (Turn κ)
  calls : List (Call κ)

/-- What the callbacks do, as far as it depends on this only. -/
abbrev Callbacks (κ : Type) := κ → Visible κ → List (Act κ)

/-- What the caller of an operation is given. -/
inductive Answer (κ : Type) where
  | scheduled (timer : Except String (Timer κ))
  | flagged
  | advanced (fired : ℕ)

namespace World

/-- What is visible of a world. -/
def visible (w : World κ) : Visible κ :=
  ⟨w.wheel.now, w.wheel.size, w.cancelled, w.created, w.turns, w.calls⟩

/-- What the callbacks do in a world. -/
def env (cb : Callbacks κ) (k : κ) (w : World κ) : List (Act κ) := cb k w.visible

/-- One operation, with what the caller is given. -/
def perform (cb : Callbacks κ) (w : World κ) (o : Op κ) : Answer κ × World κ :=
  match o with
  | .schedule delay callback =>
    match w.schedule delay callback with
    | .ok (t, w) => (.scheduled (.ok t), w)
    | .error message => (.scheduled (.error message), w)
  | .setCancelled id cancelled => (.flagged, w.setCancelled id cancelled)
  | .advance target =>
    let (fired, w) := w.advance (env cb) target
    (.advanced fired, w)

end World

/-- A timer and its rank. -/
structure Entry (κ : Type) where
  timer : Timer κ
  rank : ℕ

/-- Entries are in the order of the ticks in which they fire, and within a tick of their ranks. -/
def Entry.key (span : ℕ) (e : Entry κ) : ℕ ×ₗ ℕ := toLex (e.timer.fires span, e.rank)

/-- The agenda. `ticks` is the number of ticks that are complete. -/
structure Agenda (κ : Type) extends Visible κ where
  span : ℕ
  queue : List (Entry κ)
  ticks : ℕ

namespace Agenda

def new (slotsPerWheel levels : ℕ) : Agenda κ where
  now := 0
  size := 0
  cancelled := fun _ => false
  created := 0
  turns := []
  calls := []
  span := slotsPerWheel * max levels 1
  queue := []
  ticks := 0

/-- The timer that is scheduled next. -/
def nextTimer (a : Agenda κ) (delay : ℕ) (callback : κ) : Timer κ :=
  ⟨a.created, delay, a.now + delay, callback⟩

/-- The rank of a far timer: odd, so that it is between those of the near timers that are scheduled
before its bucket is filled up from the overflow list and after it. -/
def farRank (span : ℕ) (t : Timer κ) : ℕ := 2 * (revolution span t.deadline * span - 2) + 1

/-- The rank of a timer that is scheduled now. -/
def rankOf (a : Agenda κ) (t : Timer κ) : ℕ :=
  if t.delay < a.span then 2 * a.ticks else farRank a.span t

def register (a : Agenda κ) (delay : ℕ) (callback : κ) : Agenda κ :=
  let t := a.nextTimer delay callback
  { a with
    queue := StableQueue.insert (Entry.key a.span) a.queue ⟨t, a.rankOf t⟩
    size := a.size + 1
    cancelled := Function.update a.cancelled t.id false
    created := a.created + 1 }

def setCancelled (a : Agenda κ) (id : ℕ) (cancelled : Bool) : Agenda κ :=
  { a with cancelled := Function.update a.cancelled id cancelled }

def act (a : Agenda κ) : Act κ → Agenda κ
  | .schedule delay callback => a.register delay callback
  | .setCancelled id cancelled => a.setCancelled id cancelled

def call (cb : Callbacks κ) (a : Agenda κ) (t : Timer κ) : Agenda κ :=
  let a := { a with calls := a.calls ++ [⟨a.now, t⟩] }
  (cb t.callback a.toVisible).foldl act a

/-- The turn of `t`. -/
def turn (cb : Callbacks κ) : ℕ × Agenda κ → Timer κ → ℕ × Agenda κ
  | (fired, a), t =>
    let cancelled := a.cancelled t.id
    let (fired, a) := if cancelled then (fired, a) else (fired + 1, a.call cb t)
    let size := a.size - 1
    (fired, { a with size, turns := a.turns ++ [⟨a.now, t, cancelled, size⟩] })

/-- One tick: the clock is incremented, and the entries that fire now leave the queue. -/
def tick (cb : Callbacks κ) (a : Agenda κ) : ℕ × Agenda κ :=
  let now := a.now + 1
  let due := StableQueue.due (fun e => e.timer.fires a.span) a.queue now
  let queue := StableQueue.rest (fun e => e.timer.fires a.span) a.queue now
  let (fired, a) := (due.map (·.timer)).foldl (turn cb) (0, { a with now, queue })
  (fired, { a with ticks := a.ticks + 1 })

/-- Any number of ticks. -/
def tickAll (cb : Callbacks κ) : ℕ → ℕ → Agenda κ → ℕ × Agenda κ
  | 0, fired, a => (fired, a)
  | n + 1, fired, a =>
    let (more, a) := tick cb a
    tickAll cb n (fired + more) a

/-- One operation, with what the caller is given. -/
def perform (cb : Callbacks κ) (a : Agenda κ) (o : World.Op κ) : Answer κ × Agenda κ :=
  match o with
  | .schedule delay callback =>
    if delay < 0 then (.scheduled (.error "delay must be >= 0"), a)
    else (.scheduled (.ok (a.nextTimer delay.toNat callback)), a.register delay.toNat callback)
  | .setCancelled id cancelled => (.flagged, a.setCancelled id cancelled)
  | .advance target =>
    let (fired, a) := tickAll cb (target - a.now).toNat 0 a
    (.advanced fired, a)

end Agenda

end DurableExecution
