import Mathlib.Order.Bounds.Basic
import DurableExecution.Wheel.Proofs.FiringProofs

/-!
# Proofs: where the timers are, and that the test for due timers is redundant

A timer in a bucket has its deadline within one revolution of the clock, on either side, and a timer
in the overflow list is not due before the next re-homing. So when a tick comes to a bucket, all
timers in it are due, and the wheel does what it would do without looking at the deadlines.
-/

namespace DurableExecution

variable {κ : Type}

namespace HierarchicalTimingWheel

/-- The invariant of the representation. -/
structure Represented (w : HierarchicalTimingWheel κ) : Prop where
  /-- A bucket holds the timers of its residue that are less than one revolution away. -/
  bucket : ∀ i, ∀ t ∈ w.bucket i, t.deadline % w.slots = i ∧
    w.now < t.deadline + w.slots ∧ t.deadline < w.now + w.slots
  /-- The overflow list holds timers that are not due before the next re-homing tick. -/
  overflow : ∀ t ∈ w.overflow, ∀ n,
    IsLeast {n | w.now < n ∧ n % w.slots = w.slots - 1} n → n ≤ t.deadline

/-- `drain` without the test: all timers of the current bucket are taken. -/
def drainAll (w : HierarchicalTimingWheel κ) : List (Timer κ) × HierarchicalTimingWheel κ :=
  let slot := w.now % w.slots
  (w.bucket slot, { w with
    buckets := Buckets.replace w.buckets slot []
    length_buckets := by rw [Buckets.length_replace, w.length_buckets] })

/-- Where all timers of the current bucket are due, the test makes no difference. -/
theorem drain_eq_drainAll {w : HierarchicalTimingWheel κ}
    (h : ∀ t ∈ w.bucket (w.now % w.slots), t.deadline ≤ w.now) : w.drain = w.drainAll := by
  have hdue : ((w.bucket (w.now % w.slots)).filter fun t => t.deadline ≤ w.now) =
      w.bucket (w.now % w.slots) := by
    rw [List.filter_eq_self]
    intro t ht
    exact decide_eq_true (h t ht)
  have hkeep : ((w.bucket (w.now % w.slots)).filter fun t => w.now < t.deadline) = [] := by
    rw [List.filter_eq_nil_iff]
    intro t ht
    have := h t ht
    simp only [decide_eq_true_eq]
    omega
  unfold drain drainAll
  simp only [hdue, hkeep]

end HierarchicalTimingWheel

namespace World

variable {w : World κ}

/-- The world at the beginning of the next tick. -/
def clockOn (w : World κ) : World κ :=
  { w with wheel := { w.wheel with now := w.wheel.now + 1 } }

/-- `tick` without the test for due timers. -/
def tickAll (env : κ → World κ → List (Act κ)) (w : World κ) : ℕ × World κ :=
  let (due, wheel) := w.wheel.drainAll
  let (fired, w) := due.foldl (turn env) (0, { w with wheel })
  (fired, { w with wheel := w.wheel.endTick })

/-- The loop of `advance` with this tick. -/
def advanceLoopAll (env : κ → World κ → List (Act κ)) (target : ℤ) : ℕ → ℕ → World κ → ℕ × World κ
  | 0, fired, w => (fired, w)
  | n + 1, fired, w =>
    if w.wheel.now < target then
      let (more, w) := tickAll env w.clockOn
      advanceLoopAll env target n (fired + more) w
    else (fired, w)

/-- The tick that re-homes the overflow list next. -/
def nextRehoming (slots now : ℕ) : ℕ := (revolution slots now + 1) * slots - 1

theorem isLeast_nextRehoming {slots : ℕ} (hpos : 0 < slots) (now : ℕ) :
    IsLeast {n | now < n ∧ n % slots = slots - 1} (nextRehoming slots now) := by
  have hsucc : nextRehoming slots now + 1 = (revolution slots now + 1) * slots := by
    have : 0 < (revolution slots now + 1) * slots := Nat.mul_pos (Nat.succ_pos _) hpos
    unfold nextRehoming
    omega
  constructor
  · constructor
    · have hlt : now + 1 < (revolution slots now + 1) * slots := by
        rw [← Nat.div_lt_iff_lt_mul hpos]
        exact Nat.lt_succ_self _
      omega
    · rw [mod_eq_last_iff hpos, hsucc]
      exact Nat.mul_mod_left _ _
  · rintro n ⟨hlt, hlast⟩
    -- a re-homing tick after `now` completes a later revolution
    have hdvd : slots ∣ n + 1 := Nat.dvd_of_mod_eq_zero ((mod_eq_last_iff hpos).mp hlast)
    have hmul : revolution slots n * slots = n + 1 := Nat.div_mul_cancel hdvd
    have hrev : revolution slots now < revolution slots n := by
      unfold revolution
      rw [Nat.div_lt_iff_lt_mul hpos]
      show now + 1 < revolution slots n * slots
      omega
    have hle : (revolution slots now + 1) * slots ≤ revolution slots n * slots :=
      Nat.mul_le_mul_right slots hrev
    omega

theorem Ok.represented (hw : w.Ok) : w.wheel.Represented where
  bucket := by
    intro i t ht
    have hin := hw.bucket i t ht
    have hafter := hin.after
    have hle := fires_le w.wheel.slots t
    exact ⟨hin.slot, by omega, hin.inRange⟩
  overflow := by
    intro t ht n hn
    obtain rfl := hn.unique (isLeast_nextRehoming hw.pos w.wheel.now)
    have hmul : (revolution w.wheel.slots w.wheel.now + 1) * w.wheel.slots ≤ t.deadline + 1 := by
      rw [← Nat.le_div_iff_mul_le hw.pos]
      exact (hw.overflow t ht).waits
    unfold nextRehoming
    omega

/-- The timers that a tick finds in its bucket are due now, or were due one revolution ago. -/
theorem Ok.due (hw : w.Ok) {t : Timer κ}
    (ht : t ∈ w.clockOn.wheel.bucket (w.clockOn.wheel.now % w.clockOn.wheel.slots)) :
    t.deadline = w.clockOn.wheel.now ∨ t.deadline + w.wheel.slots = w.clockOn.wheel.now := by
  obtain ⟨hslot, hafter, hrange⟩ := hw.represented.bucket _ t ht
  have hpos := hw.pos
  have hmod : t.deadline % w.wheel.slots = (w.wheel.now + 1) % w.wheel.slots := hslot
  show t.deadline = w.wheel.now + 1 ∨ t.deadline + w.wheel.slots = w.wheel.now + 1
  rcases Nat.lt_or_ge t.deadline (w.wheel.now + 1) with hlt | hge
  · right
    have hmod' : (t.deadline + w.wheel.slots) % w.wheel.slots = (w.wheel.now + 1) % w.wheel.slots := by
      rw [Nat.add_mod_right, hmod]
    exact eq_of_mod_eq hmod' (by omega) (by omega)
  · left
    exact eq_of_mod_eq hmod hge (by omega)

theorem Ok.drain_eq (hw : w.Ok) : w.clockOn.wheel.drain = w.clockOn.wheel.drainAll := by
  apply HierarchicalTimingWheel.drain_eq_drainAll
  intro t ht
  rcases hw.due ht with h | h <;> omega

/-- A tick does what it would do without the test. -/
theorem Ok.tick_eq (hw : w.Ok) (env : κ → World κ → List (Act κ)) :
    tick env w.clockOn = tickAll env w.clockOn := by
  unfold tick tickAll
  rw [hw.drain_eq]

theorem Ok.keep_eq_nil (hw : w.Ok) :
    w.clockOn.wheel.drain.2.bucket (w.clockOn.wheel.now % w.clockOn.wheel.slots) = [] := by
  rw [hw.drain_eq]
  exact Buckets.get_replace (HierarchicalTimingWheel.slot_lt hw.pos _) []

theorem Ok.advanceLoop_eq (hw : w.Ok) (env : κ → World κ → List (Act κ)) (target : ℤ) (n fired : ℕ) :
    World.advanceLoop env target n fired w = advanceLoopAll env target n fired w := by
  induction n generalizing w fired with
  | zero => rfl
  | succ n ih =>
    unfold World.advanceLoop advanceLoopAll
    obtain ⟨hok, -, -⟩ := hw.round env
    have htick := hw.tick_eq env
    by_cases hlt : (w.wheel.now : ℤ) < target
    · rw [if_pos hlt, if_pos hlt, ← htick]
      exact ih hok _
    · rw [if_neg hlt, if_neg hlt]

/-- **The representation invariant, and the redundancy of the test for due timers**, in every state
of every run. -/
theorem run_represented (slotsPerWheel levels : ℕ) (h : 0 < slotsPerWheel)
    (env : κ → World κ → List (Act κ)) (ops : List (Op κ)) (w : World κ)
    (hw : w = run env (new slotsPerWheel levels) ops) :
    w.wheel.Represented ∧
      (∀ t ∈ w.clockOn.wheel.bucket (w.clockOn.wheel.now % w.clockOn.wheel.slots),
        t.deadline = w.clockOn.wheel.now ∨ t.deadline + w.wheel.slots = w.clockOn.wheel.now) ∧
      w.clockOn.wheel.drain.2.bucket (w.clockOn.wheel.now % w.clockOn.wheel.slots) = [] ∧
      tick env w.clockOn = tickAll env w.clockOn ∧
      ∀ target n, advanceLoop env target n 0 w = advanceLoopAll env target n 0 w := by
  obtain ⟨hok, -, -⟩ := ok_run slotsPerWheel levels h env ops
  rw [← hw] at hok
  exact ⟨hok.represented, fun t ht => hok.due ht, hok.keep_eq_nil, hok.tick_eq env,
    fun target n => hok.advanceLoop_eq env target n 0⟩

/-- On a wheel of 4 slots at 3, with a timer that is re-homed in that tick. -/
theorem run_represented_rehomed :
    (run (fun _ _ => []) (new 4 1 : World Unit) [.schedule 6 (), .advance 3]).wheel.Represented ∧
      (run (fun _ _ => []) (new 4 1 : World Unit) [.schedule 6 (), .advance 3]).wheel.bucket 2 =
        [⟨0, 6, 6, ()⟩] := by
  obtain ⟨hrep, -⟩ := run_represented 4 1 (by decide) (fun _ _ => [])
    [.schedule 6 (), .advance 3] _ rfl
  exact ⟨hrep, by decide⟩

end World

end DurableExecution
