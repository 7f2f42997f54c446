import Mathlib.Tactic.Set
import DurableExecution.Wheel.TimingWheel

/-!
# Proofs: the operations on buckets and overflow

What placing a list of timers, draining the current bucket and ending a tick do to each bucket and
to the overflow list, and that no timer is lost or doubled by them.
-/

namespace DurableExecution

namespace HierarchicalTimingWheel

variable {κ : Type} {w : HierarchicalTimingWheel κ}

/-- `place` puts `t` into bucket `i`. -/
def goesTo (w : HierarchicalTimingWheel κ) (i : ℕ) (t : Timer κ) : Bool :=
  t.deadline < w.now + w.slots ∧ t.deadline % w.slots = i

/-- `place` puts `t` into the overflow list. -/
def overflows (w : HierarchicalTimingWheel κ) (t : Timer κ) : Bool := w.now + w.slots ≤ t.deadline

theorem slot_lt (hpos : 0 < w.slots) (n : ℕ) : n % w.slots < w.buckets.length := by
  rw [w.length_buckets]
  exact Nat.mod_lt n hpos

theorem mem_held_iff {t : Timer κ} : t ∈ w.held ↔ (∃ i, t ∈ w.bucket i) ∨ t ∈ w.overflow := by
  rw [held, List.mem_append, Buckets.mem_flatten_iff]
  rfl

/-! ## Placing timers -/

@[simp] theorem slots_place (w : HierarchicalTimingWheel κ) (t : Timer κ) :
    (w.place t).slots = w.slots := by
  unfold place
  split <;> rfl

@[simp] theorem now_place (w : HierarchicalTimingWheel κ) (t : Timer κ) : (w.place t).now = w.now := by
  unfold place
  split <;> rfl

@[simp] theorem size_place (w : HierarchicalTimingWheel κ) (t : Timer κ) :
    (w.place t).size = w.size := by
  unfold place
  split <;> rfl

theorem bucket_push (hpos : 0 < w.slots) (t : Timer κ) (i : ℕ) :
    (w.push t).bucket i = w.bucket i ++ if t.deadline % w.slots = i then [t] else [] := by
  by_cases hi : t.deadline % w.slots = i
  · subst hi
    rw [if_pos rfl]
    exact Buckets.get_push (slot_lt hpos _) t
  · rw [if_neg hi, List.append_nil]
    exact Buckets.get_push_of_ne (Ne.symm hi) t

theorem bucket_place (hpos : 0 < w.slots) (t : Timer κ) (i : ℕ) :
    (w.place t).bucket i = w.bucket i ++ [t].filter (w.goesTo i) := by
  unfold place
  by_cases hr : t.deadline < w.now + w.slots
  · rw [if_pos hr, bucket_push hpos]
    by_cases hi : t.deadline % w.slots = i <;> simp [goesTo, hr, hi]
  · rw [if_neg hr]
    simp [goesTo, hr, bucket]

theorem overflow_place (w : HierarchicalTimingWheel κ) (t : Timer κ) :
    (w.place t).overflow = w.overflow ++ [t].filter w.overflows := by
  unfold place
  by_cases hr : t.deadline < w.now + w.slots
  · rw [if_pos hr]
    have hr' : ¬ w.now + w.slots ≤ t.deadline := by omega
    simp [overflows, hr', push]
  · rw [if_neg hr]
    have hr' : w.now + w.slots ≤ t.deadline := by omega
    simp [overflows, hr']

theorem held_place (hpos : 0 < w.slots) (t : Timer κ) : (w.place t).held.Perm (t :: w.held) := by
  unfold place
  by_cases hr : t.deadline < w.now + w.slots
  · rw [if_pos hr]
    exact (Buckets.flatten_push (slot_lt hpos _) t).append_right _
  · rw [if_neg hr]
    have hlast := List.perm_append_singleton t (w.buckets.flatten ++ w.overflow)
    rw [List.append_assoc] at hlast
    exact hlast

def placeAll (w : HierarchicalTimingWheel κ) (ts : List (Timer κ)) : HierarchicalTimingWheel κ :=
  ts.foldl (fun w t => w.place t) w

@[simp] theorem slots_placeAll (w : HierarchicalTimingWheel κ) (ts : List (Timer κ)) :
    (w.placeAll ts).slots = w.slots := by
  induction ts generalizing w with
  | nil => rfl
  | cons t ts ih => exact (ih _).trans (slots_place w t)

@[simp] theorem now_placeAll (w : HierarchicalTimingWheel κ) (ts : List (Timer κ)) :
    (w.placeAll ts).now = w.now := by
  induction ts generalizing w with
  | nil => rfl
  | cons t ts ih => exact (ih _).trans (now_place w t)

@[simp] theorem size_placeAll (w : HierarchicalTimingWheel κ) (ts : List (Timer κ)) :
    (w.placeAll ts).size = w.size := by
  induction ts generalizing w with
  | nil => rfl
  | cons t ts ih => exact (ih _).trans (size_place w t)

theorem goesTo_place (w : HierarchicalTimingWheel κ) (t : Timer κ) (i : ℕ) :
    (w.place t).goesTo i = w.goesTo i := by
  funext u
  simp [goesTo]

theorem overflows_place (w : HierarchicalTimingWheel κ) (t : Timer κ) :
    (w.place t).overflows = w.overflows := by
  funext u
  simp [overflows]

theorem bucket_placeAll (hpos : 0 < w.slots) (ts : List (Timer κ)) (i : ℕ) :
    (w.placeAll ts).bucket i = w.bucket i ++ ts.filter (w.goesTo i) := by
  induction ts generalizing w with
  | nil => simp [placeAll]
  | cons t ts ih =>
    have hrest := ih (w := w.place t) (by simpa using hpos)
    rw [bucket_place hpos, goesTo_place, List.append_assoc, ← List.filter_append] at hrest
    exact hrest

theorem overflow_placeAll (w : HierarchicalTimingWheel κ) (ts : List (Timer κ)) :
    (w.placeAll ts).overflow = w.overflow ++ ts.filter w.overflows := by
  induction ts generalizing w with
  | nil => simp [placeAll]
  | cons t ts ih =>
    have hrest := ih (w.place t)
    rw [overflow_place, overflows_place, List.append_assoc, ← List.filter_append] at hrest
    exact hrest

theorem held_placeAll (hpos : 0 < w.slots) (ts : List (Timer κ)) :
    (w.placeAll ts).held.Perm (ts ++ w.held) := by
  induction ts generalizing w with
  | nil => exact List.Perm.refl _
  | cons t ts ih =>
    have hrest := ih (w := w.place t) (by simpa using hpos)
    exact hrest.trans (((held_place hpos t).append_left ts).trans List.perm_middle)

/-! ## Draining the current bucket -/

theorem bucket_drain (hpos : 0 < w.slots) :
    w.drain.2.bucket (w.now % w.slots) =
      (w.bucket (w.now % w.slots)).filter fun t => w.now < t.deadline :=
  Buckets.get_replace (slot_lt hpos _) _

theorem bucket_drain_of_ne {i : ℕ} (hi : i ≠ w.now % w.slots) : w.drain.2.bucket i = w.bucket i :=
  Buckets.get_replace_of_ne hi _

/-- Draining splits the timers on the wheel into those that are due and those that stay. -/
theorem held_drain (hpos : 0 < w.slots) : (w.drain.1 ++ w.drain.2.held).Perm w.held := by
  set b := w.bucket (w.now % w.slots) with hb
  set keep := b.filter fun t => w.now < t.deadline with hkeep
  have hreplace : (b ++ w.drain.2.buckets.flatten).Perm (keep ++ w.buckets.flatten) :=
    Buckets.flatten_replace (slot_lt hpos w.now) keep
  have hsplit := List.filter_append_perm (fun t : Timer κ => decide (t.deadline ≤ w.now)) b
  have hnot : (fun t : Timer κ => !decide (t.deadline ≤ w.now)) =
      fun t => decide (w.now < t.deadline) := by
    funext t
    simp only [← decide_not, Nat.not_le]
  rw [hnot] at hsplit
  have hall : (w.drain.1 ++ keep ++ w.drain.2.buckets.flatten).Perm (keep ++ w.buckets.flatten) :=
    (hsplit.append_right _).trans hreplace
  rw [List.append_assoc] at hall
  have hcancel := (List.perm_append_left_iff keep).mp
    ((List.perm_append_comm_assoc ..).symm.trans hall)
  rw [held, ← List.append_assoc]
  exact hcancel.append_right w.overflow

/-! ## Ending a tick -/

/-- A tick that does not complete a revolution leaves the wheel as it is. -/
theorem endTick_of_ne (h : w.now % w.slots ≠ w.slots - 1) : w.endTick = w := by
  rw [endTick, if_neg (fun hc => h hc.1)]

/-- A tick that completes a revolution places the overflow timers again. -/
theorem endTick_of_eq (h : w.now % w.slots = w.slots - 1) :
    w.endTick = ({ w with overflow := [] } : HierarchicalTimingWheel κ).placeAll w.overflow := by
  rw [endTick]
  by_cases ho : w.overflow = []
  · rw [if_neg (fun hc => hc.2 ho), ho]
    cases w
    subst ho
    rfl
  · rw [if_pos ⟨h, ho⟩]
    rfl

theorem bucket_endTick (hpos : 0 < w.slots) (h : w.now % w.slots = w.slots - 1) (i : ℕ) :
    w.endTick.bucket i = w.bucket i ++ w.overflow.filter (w.goesTo i) := by
  rw [endTick_of_eq h]
  exact bucket_placeAll (w := { w with overflow := [] }) hpos w.overflow i

theorem overflow_endTick (h : w.now % w.slots = w.slots - 1) :
    w.endTick.overflow = w.overflow.filter w.overflows := by
  rw [endTick_of_eq h]
  exact overflow_placeAll { w with overflow := [] } w.overflow

theorem endTick_frame (w : HierarchicalTimingWheel κ) :
    w.endTick.slots = w.slots ∧ w.endTick.now = w.now ∧ w.endTick.size = w.size := by
  by_cases h : w.now % w.slots = w.slots - 1
  · rw [endTick_of_eq h]
    simp
  · rw [endTick_of_ne h]
    exact ⟨rfl, rfl, rfl⟩

theorem held_endTick (hpos : 0 < w.slots) : w.endTick.held.Perm w.held := by
  by_cases h : w.now % w.slots = w.slots - 1
  · rw [endTick_of_eq h]
    have hempty : ({ w with overflow := [] } : HierarchicalTimingWheel κ).held = w.buckets.flatten :=
      List.append_nil _
    have hall := held_placeAll (w := { w with overflow := [] }) hpos w.overflow
    rw [hempty] at hall
    exact hall.trans List.perm_append_comm
  · rw [endTick_of_ne h]

end HierarchicalTimingWheel

end DurableExecution
