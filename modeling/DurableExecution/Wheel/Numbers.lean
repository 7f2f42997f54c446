import Mathlib.Data.Int.Cast.Basic
import Mathlib.Order.Defs.LinearOrder
import Mathlib.Algebra.Field.Rat
import Mathlib.Algebra.Order.Ring.Unbundled.Rat
import DurableExecution.Library.Buckets

/-!
# The numbers that the ports compute with

The wheel again, now with the arithmetic of a port: `i64` and `usize` in Rust, where an overflow, a
remainder by zero and an index out of bounds panic, and `number` in TypeScript, where a delay may be
a fraction, and a bucket that does not exist is `undefined`. Callbacks leave the wheel alone here.

An operation that panics or throws ends with `error`, and with the wheel as it leaves it.
-/

namespace DurableExecution

/-- The arithmetic of a port, whose delays and deadlines are of the type `ν`. -/
structure Arithmetic (ν : Type) where
  /-- Whether the result of an addition or subtraction can be represented. -/
  fits : ν → Bool
  /-- The index `n % slots`, if it is an index at all. -/
  index : ν → ℕ → Option ℕ
  /-- `size -= 1`. -/
  countDown : ℤ → Option ℤ

namespace Arithmetic

/-- Rust, with overflow checks. The remainder has the sign of `n`, and is cast to `usize`. (`slots` is
the length of a `Vec`, so it is an `i64` as well.) -/
def rust : Arithmetic ℤ where
  fits n := -2 ^ 63 ≤ n ∧ n < 2 ^ 63
  index n slots := if slots = 0 then none else some (n.tmod slots % 2 ^ 64).toNat
  countDown size := if size = 0 then none else some (size - 1)

/-- `n % slots` in TypeScript, on exact numbers: the remainder has the sign of `n`. -/
def remainder (n : ℚ) (slots : ℕ) : ℚ := n - slots * ((n / slots).num.tdiv (n / slots).den : ℤ)

/-- TypeScript. Only the non-negative integers name the elements of an array. -/
def typeScript : Arithmetic ℚ where
  fits _ := true
  index n slots :=
    if slots ≠ 0 ∧ (remainder n slots).den = 1 ∧ 0 ≤ remainder n slots then
      some (remainder n slots).num.toNat
    else none
  countDown size := some (size - 1)

end Arithmetic

/-- One scheduled timer. `id` names the object that the caller holds. -/
structure PortTimer (ν κ : Type) where
  id : ℕ
  deadline : ν
  callback : κ

/-- The wheel of a port. `cancelled` has the flags of the timers; `created` counts the timers and
`calls` has the callbacks that ran and the ticks in which they did, both for the statements only. -/
structure PortWheel (ν κ : Type) where
  slots : ℕ
  buckets : List (List (PortTimer ν κ))
  overflow : List (PortTimer ν κ)
  now : ℤ
  size : ℤ
  cancelled : ℕ → Bool
  created : ℕ
  calls : List (ℤ × PortTimer ν κ)

namespace PortWheel

variable {ν κ : Type} [Ring ν] [LinearOrder ν]

/-- Builds a wheel spanning `slotsPerWheel * levels` ticks. `levels` below 1 is treated as 1. -/
def withConfig (slotsPerWheel levels : ℕ) : PortWheel ν κ where
  slots := slotsPerWheel * max levels 1
  buckets := List.replicate (slotsPerWheel * max levels 1) []
  overflow := []
  now := 0
  size := 0
  cancelled := fun _ => false
  created := 0
  calls := []

/-- All timers on the wheel, each at its place. -/
def held (w : PortWheel ν κ) : List (PortTimer ν κ) := w.buckets.flatten ++ w.overflow

variable (A : Arithmetic ν)

/-- The bucket at the index `n % slots`, if there is one. -/
def slotOf (w : PortWheel ν κ) (n : ν) : Option ℕ :=
  (A.index n w.slots).filter fun i => i < w.buckets.length

/-- The test `deadline - now < slots`. -/
def near (w : PortWheel ν κ) (t : PortTimer ν κ) : Option Bool :=
  let d := t.deadline - (w.now : ν)
  if A.fits d then some (d < w.slots) else none

/-- Puts a timer into its bucket if it is due within one revolution, and into the overflow list
otherwise. -/
def place (w : PortWheel ν κ) (t : PortTimer ν κ) : Except (PortWheel ν κ) (PortWheel ν κ) :=
  match w.near A t with
  | none => .error w
  | some true =>
    match w.slotOf A t.deadline with
    | some i => .ok { w with buckets := Buckets.push w.buckets i t }
    | none => .error w
  | some false => .ok { w with overflow := w.overflow ++ [t] }

/-- `schedule`: a negative delay is rejected. -/
def schedule (w : PortWheel ν κ) (delay : ν) (callback : κ) :
    Except (PortWheel ν κ) (PortTimer ν κ × PortWheel ν κ) :=
  if delay < 0 then .error w
  else
    let deadline := (w.now : ν) + delay
    if A.fits deadline then
      let t := ⟨w.created, deadline, callback⟩
      match w.place A t with
      | .ok w => .ok (t, { w with
          size := w.size + 1
          cancelled := Function.update w.cancelled t.id false
          created := w.created + 1 })
      | .error w => .error w
    else .error w

/-- The turns of the due timers. Returns how many callbacks ran. -/
def turns : List (PortTimer ν κ) → ℕ → PortWheel ν κ → Except (PortWheel ν κ) (ℕ × PortWheel ν κ)
  | [], fired, w => .ok (fired, w)
  | t :: due, fired, w =>
    let (fired, w) :=
      if w.cancelled t.id then (fired, w) else (fired + 1, { w with calls := w.calls ++ [(w.now, t)] })
    match A.countDown w.size with
    | some size => turns due fired { w with size }
    | none => .error w

/-- The re-homing loop over the overflow list. Until it ends, the list is left as it was. -/
def rehome : List (PortTimer ν κ) → List (PortTimer ν κ) → PortWheel ν κ →
    Except (PortWheel ν κ) (PortWheel ν κ)
  | [], still, w => .ok { w with overflow := still }
  | t :: ts, still, w =>
    match w.near A t with
    | none => .error w
    | some true =>
      match w.slotOf A t.deadline with
      | some i => rehome ts still { w with buckets := Buckets.push w.buckets i t }
      | none => .error w
    | some false => rehome ts (still ++ [t]) w

/-- The end of a tick. -/
def endTick (w : PortWheel ν κ) (slot : ℕ) : Except (PortWheel ν κ) (PortWheel ν κ) :=
  if slot = w.slots - 1 ∧ w.overflow.length > 0 then rehome A w.overflow [] w else .ok w

/-- `tick`: the due timers of the current bucket take their turns, and at the end of a revolution
the overflow list is re-homed. -/
def tick (w : PortWheel ν κ) : Except (PortWheel ν κ) (ℕ × PortWheel ν κ) :=
  match w.slotOf A (w.now : ν) with
  | none => .error w
  | some slot =>
    let bucket := Buckets.get w.buckets slot
    let due := bucket.filter fun t => t.deadline ≤ (w.now : ν)
    let keep := bucket.filter fun t => (w.now : ν) < t.deadline
    match turns A due 0 { w with buckets := Buckets.replace w.buckets slot keep } with
    | .error w => .error w
    | .ok (fired, w) =>
      match w.endTick A slot with
      | .error w => .error w
      | .ok w => .ok (fired, w)

/-- The loop of `advance`: while `now < to`, increment the clock and tick. -/
def advanceLoop (target : ℤ) : ℕ → ℕ → PortWheel ν κ → Except (PortWheel ν κ) (ℕ × PortWheel ν κ)
  | 0, fired, w => .ok (fired, w)
  | n + 1, fired, w =>
    if w.now < target then
      if A.fits ((w.now + 1 : ℤ) : ν) then
        match tick A { w with now := w.now + 1 } with
        | .error w => .error w
        | .ok (more, w) => advanceLoop target n (fired + more) w
      else .error w
    else .ok (fired, w)

/-- `advance`. -/
def advance (w : PortWheel ν κ) (target : ℤ) : Except (PortWheel ν κ) (ℕ × PortWheel ν κ) :=
  advanceLoop A target (target - w.now).toNat 0 w

/-- The operations. -/
inductive Op (ν κ : Type) where
  | schedule (delay : ν) (callback : κ)
  | setCancelled (id : ℕ) (cancelled : Bool)
  | advance (target : ℤ)

/-- One operation. -/
def op (w : PortWheel ν κ) : Op ν κ → Except (PortWheel ν κ) (PortWheel ν κ)
  | .schedule delay callback =>
    match w.schedule A delay callback with
    | .ok (_, w) => .ok w
    | .error w => .error w
  | .setCancelled id cancelled =>
    .ok { w with cancelled := Function.update w.cancelled id cancelled }
  | .advance target =>
    match w.advance A target with
    | .ok (_, w) => .ok w
    | .error w => .error w

/-! ## Runs in Rust -/

/-- One operation in Rust. A panic ends the program. -/
def rustNext (w : PortWheel ℤ κ) (o : Op ℤ κ) : Option (PortWheel ℤ κ) := (op .rust w o).toOption

/-- The arguments are of type `i64`, and the delay is not negative. -/
def Op.IsI64 : Op ℤ κ → Prop
  | .schedule delay _ => 0 ≤ delay ∧ delay < 2 ^ 63
  | .setCancelled _ _ => True
  | .advance target => -2 ^ 63 ≤ target ∧ target < 2 ^ 63

/-- What the clock shows after the operation. -/
def Op.clock (now : ℤ) : Op ℤ κ → ℤ
  | .advance target => max now target
  | _ => now

/-- The deadline is an `i64`, too. -/
def Op.Fits (now : ℤ) : Op ℤ κ → Prop
  | .schedule delay _ => now + delay < 2 ^ 63
  | _ => True

/-- Every deadline is an `i64`, when the clock shows `now` at the start. -/
def AllFit (now : ℤ) : List (Op ℤ κ) → Prop
  | [] => True
  | o :: ops => o.Fits now ∧ AllFit (o.clock now) ops

/-! ## Runs in TypeScript -/

/-- One operation in TypeScript. An exception is caught by the caller. -/
def tsNext (w : PortWheel ℚ κ) (o : Op ℚ κ) : PortWheel ℚ κ :=
  match op .typeScript w o with
  | .ok w => w
  | .error w => w

/-- No callback has run twice, no timer is held in two places, and the size is the number of timers
on the wheel. -/
structure Sound (w : PortWheel ℚ κ) : Prop where
  once : (w.calls.map (·.2.id)).Nodup
  apart : (w.held.map (·.id)).Nodup
  size : w.size = w.held.length

/-- No `advance` of the run throws, and all of its states are sound. -/
def Unbroken (w : PortWheel ℚ κ) : List (Op ℚ κ) → Prop
  | [] => Sound w
  | o :: ops =>
    Sound w ∧ (∀ target, o = .advance target → ∃ r, w.advance .typeScript target = .ok r) ∧
      Unbroken (tsNext w o) ops

end PortWheel

end DurableExecution
