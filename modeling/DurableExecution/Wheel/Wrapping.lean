import DurableExecution.Library.Signed
import DurableExecution.Wheel.Agenda
import DurableExecution.Wheel.Numbers

/-!
# Integers of the machine

The wheel of Go, Java and C#. Times are integers of 64 bits; the number of slots, the size and the
counts are of the type `int`, which has 64 bits in Go and 32 bits in Java and C#. All of them wrap
around: a deadline that is too large becomes negative, and the timer waits in the overflow list with
it. Callbacks leave the wheel alone here.

An operation that panics or throws ends with `error`, and with the wheel as it leaves it.
-/

namespace DurableExecution

/-- The wheel, with an `int` of `bits` bits. `cancelled`, `created` and `calls` are as in
`PortWheel`. -/
structure IntWheel (bits : ℕ) (κ : Type) where
  slots : Signed bits
  buckets : List (List (PortTimer (Signed 64) κ))
  overflow : List (PortTimer (Signed 64) κ)
  now : Signed 64
  size : Signed bits
  cancelled : ℕ → Bool
  created : ℕ
  calls : List (Signed 64 × PortTimer (Signed 64) κ)

/-- What the caller of an operation is given. `none` stands for a panic or an exception, which the
caller may catch. -/
inductive Given (ν κ : Type) where
  | scheduled (timer : Option (PortTimer ν κ))
  | flagged
  | advanced (fired : Option ℤ)

namespace IntWheel

variable {bits : ℕ} {κ : Type}

/-- The constructor: a wheel spanning `slotsPerWheel * levels` ticks, where `levels` below 1 is
treated as 1. Buckets cannot be allocated in a negative number. -/
def withConfig (slotsPerWheel levels : Signed bits) : Option (IntWheel bits κ) :=
  let slots := slotsPerWheel * max 1 levels
  if slots < 0 then none
  else some {
    slots
    buckets := List.replicate slots.toInt.toNat []
    overflow := []
    now := 0
    size := 0
    cancelled := fun _ => false
    created := 0
    calls := [] }

/-- The bucket at the index `n % slots`. The remainder has the sign of `n`; a remainder by zero and a
negative index panic or throw. -/
def slotOf (w : IntWheel bits κ) (n : Signed 64) : Option ℕ :=
  let index := n.toInt.tmod w.slots.toInt
  if w.slots ≠ 0 ∧ 0 ≤ index ∧ index.toNat < w.buckets.length then some index.toNat else none

/-- The test `deadline - now < slots`, where `slots` is made 64 bits wide. -/
def near (w : IntWheel bits κ) (t : PortTimer (Signed 64) κ) : Bool :=
  t.deadline - w.now < (w.slots.toInt : Signed 64)

/-- Puts a timer into its bucket if it is due within one revolution, and into the overflow list
otherwise. -/
def place (w : IntWheel bits κ) (t : PortTimer (Signed 64) κ) :
    Except (IntWheel bits κ) (IntWheel bits κ) :=
  if w.near t then
    match w.slotOf t.deadline with
    | some i => .ok { w with buckets := Buckets.push w.buckets i t }
    | none => .error w
  else .ok { w with overflow := w.overflow ++ [t] }

/-- `schedule`: a negative delay is rejected. -/
def schedule (w : IntWheel bits κ) (delay : Signed 64) (callback : κ) :
    Except (IntWheel bits κ) (PortTimer (Signed 64) κ × IntWheel bits κ) :=
  if delay < 0 then .error w
  else
    let t := ⟨w.created, w.now + delay, callback⟩
    match w.place t with
    | .ok w => .ok (t, { w with
        size := w.size + 1
        cancelled := Function.update w.cancelled t.id false
        created := w.created + 1 })
    | .error w => .error w

/-- The turns of the due timers. Returns how many callbacks ran. -/
def turns : List (PortTimer (Signed 64) κ) → Signed bits → IntWheel bits κ →
    Signed bits × IntWheel bits κ
  | [], fired, w => (fired, w)
  | t :: due, fired, w =>
    let (fired, w) :=
      if w.cancelled t.id then (fired, w) else (fired + 1, { w with calls := w.calls ++ [(w.now, t)] })
    turns due fired { w with size := w.size - 1 }

/-- The re-homing loop over the overflow list. Until it ends, the list is left as it was. -/
def rehome : List (PortTimer (Signed 64) κ) → List (PortTimer (Signed 64) κ) → IntWheel bits κ →
    Except (IntWheel bits κ) (IntWheel bits κ)
  | [], still, w => .ok { w with overflow := still }
  | t :: ts, still, w =>
    if w.near t then
      match w.slotOf t.deadline with
      | some i => rehome ts still { w with buckets := Buckets.push w.buckets i t }
      | none => .error w
    else rehome ts (still ++ [t]) w

/-- The end of a tick. -/
def endTick (w : IntWheel bits κ) (slot : ℕ) : Except (IntWheel bits κ) (IntWheel bits κ) :=
  if (slot : Signed bits) = w.slots - 1 ∧ w.overflow.length > 0 then rehome w.overflow [] w else .ok w

/-- `tick`: the due timers of the current bucket take their turns, and at the end of a revolution
the overflow list is re-homed. -/
def tick (w : IntWheel bits κ) : Except (IntWheel bits κ) (Signed bits × IntWheel bits κ) :=
  match w.slotOf w.now with
  | none => .error w
  | some slot =>
    let bucket := Buckets.get w.buckets slot
    let due := bucket.filter fun t => t.deadline ≤ w.now
    let keep := bucket.filter fun t => w.now < t.deadline
    let (fired, w) := turns due 0 { w with buckets := Buckets.replace w.buckets slot keep }
    match w.endTick slot with
    | .error w => .error w
    | .ok w => .ok (fired, w)

/-- The loop of `advance`: while `now < to`, increment the clock and tick. -/
def advanceLoop (target : Signed 64) : ℕ → Signed bits → IntWheel bits κ →
    Except (IntWheel bits κ) (Signed bits × IntWheel bits κ)
  | 0, fired, w => .ok (fired, w)
  | n + 1, fired, w =>
    if w.now < target then
      match tick { w with now := w.now + 1 } with
      | .error w => .error w
      | .ok (more, w) => advanceLoop target n (fired + more) w
    else .ok (fired, w)

/-- `advance`. -/
def advance (w : IntWheel bits κ) (target : Signed 64) :
    Except (IntWheel bits κ) (Signed bits × IntWheel bits κ) :=
  advanceLoop target (target.toInt - w.now.toInt).toNat 0 w

/-- The operations. -/
inductive Op (κ : Type) where
  | schedule (delay : Signed 64) (callback : κ)
  | setCancelled (id : ℕ) (cancelled : Bool)
  | advance (target : Signed 64)

/-- One operation, with what the caller is given. -/
def perform (w : IntWheel bits κ) : Op κ → Given (Signed 64) κ × IntWheel bits κ
  | .schedule delay callback =>
    match w.schedule delay callback with
    | .ok (t, w) => (.scheduled (some t), w)
    | .error w => (.scheduled none, w)
  | .setCancelled id cancelled =>
    (.flagged, { w with cancelled := Function.update w.cancelled id cancelled })
  | .advance target =>
    match w.advance target with
    | .ok (fired, w) => (.advanced (some fired.toInt), w)
    | .error w => (.advanced none, w)

/-- The operation on exact numbers. -/
def Op.exact : Op κ → World.Op κ
  | .schedule delay callback => .schedule delay.toInt callback
  | .setCancelled id cancelled => .setCancelled id cancelled
  | .advance target => .advance target.toInt

/-- Whether the operation is a `schedule`. -/
def Op.schedules : Op κ → Bool
  | .schedule _ _ => true
  | _ => false

end IntWheel

namespace PortWheel

variable {ν κ : Type} [Ring ν] [LinearOrder ν]

/-- One operation, with what the caller is given. -/
def perform (A : Arithmetic ν) (w : PortWheel ν κ) : Op ν κ → Given ν κ × PortWheel ν κ
  | .schedule delay callback =>
    match w.schedule A delay callback with
    | .ok (t, w) => (.scheduled (some t), w)
    | .error w => (.scheduled none, w)
  | .setCancelled id cancelled =>
    (.flagged, { w with cancelled := Function.update w.cancelled id cancelled })
  | .advance target =>
    match w.advance A target with
    | .ok (fired, w) => (.advanced (some fired), w)
    | .error w => (.advanced none, w)

/-- The operation in the numbers of a port. -/
def Op.cast : Op ℤ κ → Op ν κ
  | .schedule delay callback => .schedule (delay : ν) callback
  | .setCancelled id cancelled => .setCancelled id cancelled
  | .advance target => .advance target

end PortWheel

end DurableExecution
