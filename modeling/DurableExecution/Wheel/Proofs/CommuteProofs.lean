import Mathlib.Logic.Equiv.Basic
import DurableExecution.Wheel.Proofs.FiringProofs

/-!
# Proofs: scheduling timers with different deadlines commutes

Two worlds that are the same up to the names of the timers and the order of the overflow list, as
far as it concerns timers with different deadlines. No sequence of operations tells them apart: the
timers that a re-homing puts into one bucket all have the same deadline.
-/

namespace DurableExecution

variable {κ : Type}

/-! ## Renaming -/

section Rename

variable (π : Equiv.Perm ℕ)

def Timer.rename (t : Timer κ) : Timer κ := { t with id := π t.id }

def Call.rename (c : Call κ) : Call κ := { c with timer := c.timer.rename π }

def Act.rename : Act κ → Act κ
  | .schedule delay callback => .schedule delay callback
  | .setCancelled id cancelled => .setCancelled (π id) cancelled

def Op.rename : World.Op κ → World.Op κ
  | .schedule delay callback => .schedule delay callback
  | .setCancelled id cancelled => .setCancelled (π id) cancelled
  | .advance target => .advance target

/-- A renaming does not touch what looks at the deadline only. -/
theorem Timer.filter_map_rename (p : ℕ → Bool) (ts : List (Timer κ)) :
    (ts.map (Timer.rename π)).filter (fun t => p t.deadline) =
      (ts.filter fun t => p t.deadline).map (Timer.rename π) := by
  rw [List.filter_map]
  rfl

end Rename

namespace World

/-- Two worlds that are the same up to the names of the timers, and up to the order in the overflow
list of timers with different deadlines. -/
structure Twin (π : Equiv.Perm ℕ) (w₁ w₂ : World κ) : Prop where
  slots : w₂.wheel.slots = w₁.wheel.slots
  now : w₂.wheel.now = w₁.wheel.now
  size : w₂.wheel.size = w₁.wheel.size
  bucket : ∀ i, w₂.wheel.bucket i = (w₁.wheel.bucket i).map (Timer.rename π)
  overflow : ∀ D, (w₂.wheel.overflow.filter fun t => t.deadline = D) =
    (w₁.wheel.overflow.filter fun t => t.deadline = D).map (Timer.rename π)
  created : w₂.created = w₁.created
  fresh : ∀ id, w₁.created ≤ id → π id = id
  flags : ∀ id, w₂.cancelled (π id) = w₁.cancelled id
  calls : w₂.calls = w₁.calls.map (Call.rename π)

/-- The callbacks do the same in both worlds, to the timers that correspond to each other. -/
def ActAlike (π : Equiv.Perm ℕ) (env₁ env₂ : κ → World κ → List (Act κ)) : Prop :=
  ∀ (w₁ w₂ : World κ) (t : Timer κ), Twin π w₁ w₂ →
    env₂ t.callback (w₂.logged (t.rename π)) = (env₁ t.callback (w₁.logged t)).map (Act.rename π)

variable {π : Equiv.Perm ℕ} {w w₁ w₂ : World κ} {env₁ env₂ : κ → World κ → List (Act κ)}

/-! ## Scheduling and flags -/

theorem Twin.nextTimer (h : Twin π w₁ w₂) (delay : ℕ) (callback : κ) :
    w₂.nextTimer delay callback = (w₁.nextTimer delay callback).rename π := by
  unfold World.nextTimer Timer.rename
  rw [h.created, h.now, h.fresh w₁.created (Nat.le_refl _)]

theorem Twin.setCancelled (h : Twin π w₁ w₂) (id : ℕ) (cancelled : Bool) :
    Twin π (w₁.setCancelled id cancelled) (w₂.setCancelled (π id) cancelled) := by
  refine ⟨h.slots, h.now, h.size, h.bucket, h.overflow, h.created, h.fresh, fun other => ?_, h.calls⟩
  show Function.update w₂.cancelled (π id) cancelled (π other) =
    Function.update w₁.cancelled id cancelled other
  by_cases heq : other = id
  · rw [heq, Function.update_self, Function.update_self]
  · rw [Function.update_of_ne heq, Function.update_of_ne (fun hπ => heq (π.injective hπ))]
    exact h.flags other

theorem Twin.register (h : Twin π w₁ w₂) (hpos : 0 < w₁.wheel.slots) (delay : ℕ) (callback : κ) :
    Twin π (w₁.register delay callback) (w₂.register delay callback) := by
  have hpos₂ : 0 < w₂.wheel.slots := by rw [h.slots]; exact hpos
  have hnext := h.nextTimer delay callback
  have hflags := (h.setCancelled w₁.created false).flags
  rw [h.fresh w₁.created (Nat.le_refl _)] at hflags
  refine ⟨?_, ?_, ?_, ?_, ?_, ?_, ?_, ?_, h.calls⟩
  · rw [slots_register, slots_register, h.slots]
  · rw [now_register, now_register, h.now]
  · have hsize := h.size
    simp only [World.register, HierarchicalTimingWheel.size_place, hsize]
  · intro i
    rw [bucket_register hpos₂, bucket_register hpos, h.bucket, h.slots, h.now, hnext, List.map_append]
    split <;> rfl
  · intro D
    rw [overflow_register, overflow_register, List.filter_append, List.filter_append, h.overflow,
      h.slots, hnext, List.map_append]
    split
    · exact congrArg (_ ++ ·)
        (Timer.filter_map_rename π (fun d => d = D) [w₁.nextTimer delay callback])
    · rfl
  · show w₂.created + 1 = w₁.created + 1
    rw [h.created]
  · intro id hid
    exact h.fresh id (Nat.le_of_succ_le hid)
  · intro id
    show Function.update w₂.cancelled w₂.created false (π id) = _
    rw [h.created]
    exact hflags id

theorem Twin.act (h : Twin π w₁ w₂) (hpos : 0 < w₁.wheel.slots) (a : Act κ) :
    Twin π (w₁.act a) (w₂.act (a.rename π)) := by
  cases a with
  | schedule delay callback => exact h.register hpos delay callback
  | setCancelled id cancelled => exact h.setCancelled id cancelled

theorem Twin.acts (h : Twin π w₁ w₂) (hpos : 0 < w₁.wheel.slots) (as : List (Act κ)) :
    Twin π (as.foldl World.act w₁) ((as.map (Act.rename π)).foldl World.act w₂) := by
  induction as generalizing w₁ w₂ with
  | nil => exact h
  | cons a as ih =>
    refine ih (h.act hpos a) ?_
    rw [(frame_act w₁ a).slots]
    exact hpos

/-! ## Ticks -/

theorem Twin.logged (h : Twin π w₁ w₂) (t : Timer κ) :
    Twin π (w₁.logged t) (w₂.logged (t.rename π)) := by
  refine ⟨h.slots, h.now, h.size, h.bucket, h.overflow, h.created, h.fresh, h.flags, ?_⟩
  unfold World.logged
  rw [List.map_append, h.calls, h.now]
  rfl

theorem Twin.called (h : Twin π w₁ w₂) (henv : ActAlike π env₁ env₂) (hpos : 0 < w₁.wheel.slots)
    (t : Timer κ) : Twin π (called env₁ w₁ t) (called env₂ w₂ (t.rename π)) := by
  have hflag : w₂.cancelled (t.rename π).id = w₁.cancelled t.id := h.flags t.id
  unfold World.called
  rw [hflag]
  split
  · exact h
  · have hacts := (h.logged t).acts hpos (env₁ t.callback (w₁.logged t))
    rw [← henv w₁ w₂ t h] at hacts
    exact hacts

theorem Twin.turn (h : Twin π w₁ w₂) (henv : ActAlike π env₁ env₂) (hpos : 0 < w₁.wheel.slots)
    (t : Timer κ) (fired : ℕ) :
    (turn env₂ (fired, w₂) (t.rename π)).1 = (turn env₁ (fired, w₁) t).1 ∧
      Twin π (turn env₁ (fired, w₁) t).2 (turn env₂ (fired, w₂) (t.rename π)).2 := by
  have hc := h.called henv hpos t
  have hflag : w₂.cancelled (t.rename π).id = w₁.cancelled t.id := h.flags t.id
  rw [turn_eq, turn_eq]
  constructor
  · unfold callsOf
    rw [hflag]
    split <;> rfl
  · refine ⟨hc.slots, hc.now, ?_, hc.bucket, hc.overflow, hc.created, hc.fresh, hc.flags, hc.calls⟩
    show _ - 1 = _ - 1
    rw [hc.size]

theorem Twin.turns (h : Twin π w₁ w₂) (henv : ActAlike π env₁ env₂) (hpos : 0 < w₁.wheel.slots)
    (due : List (Timer κ)) (fired : ℕ) :
    ((due.map (Timer.rename π)).foldl (World.turn env₂) (fired, w₂)).1 =
        (due.foldl (World.turn env₁) (fired, w₁)).1 ∧
      Twin π (due.foldl (World.turn env₁) (fired, w₁)).2
        ((due.map (Timer.rename π)).foldl (World.turn env₂) (fired, w₂)).2 := by
  induction due generalizing w₁ w₂ fired with
  | nil => exact ⟨rfl, h⟩
  | cons t due ih =>
    obtain ⟨hfired, hturn⟩ := h.turn henv hpos t fired
    have hpos' : 0 < (World.turn env₁ (fired, w₁) t).2.wheel.slots := by
      rw [turn_eq]
      show 0 < (World.called env₁ w₁ t).wheel.slots
      rw [(called_frame env₁ w₁ t).1]
      exact hpos
    have hpair : World.turn env₂ (fired, w₂) (t.rename π) =
        ((World.turn env₁ (fired, w₁) t).1, (World.turn env₂ (fired, w₂) (t.rename π)).2) :=
      Prod.ext hfired rfl
    rw [List.map_cons, List.foldl_cons, List.foldl_cons, hpair]
    exact ih hturn hpos' _

theorem Twin.drain (h : Twin π w₁ w₂) (hpos : 0 < w₁.wheel.slots) :
    w₂.wheel.drain.1 = w₁.wheel.drain.1.map (Timer.rename π) ∧
      Twin π { w₁ with wheel := w₁.wheel.drain.2 } { w₂ with wheel := w₂.wheel.drain.2 } := by
  have hpos₂ : 0 < w₂.wheel.slots := by rw [h.slots]; exact hpos
  have hcurrent := h.bucket (w₁.wheel.now % w₁.wheel.slots)
  constructor
  · show (w₂.wheel.bucket (w₂.wheel.now % w₂.wheel.slots)).filter _ = _
    rw [h.now, h.slots, hcurrent]
    exact Timer.filter_map_rename π (fun d => d ≤ w₁.wheel.now) _
  · refine ⟨h.slots, h.now, h.size, fun i => ?_, h.overflow, h.created, h.fresh, h.flags, h.calls⟩
    show w₂.wheel.drain.2.bucket i = (w₁.wheel.drain.2.bucket i).map (Timer.rename π)
    by_cases hi : i = w₁.wheel.now % w₁.wheel.slots
    · have hi₂ : i = w₂.wheel.now % w₂.wheel.slots := by rw [h.now, h.slots, hi]
      have hdrain₁ := HierarchicalTimingWheel.bucket_drain hpos
      have hdrain₂ := HierarchicalTimingWheel.bucket_drain hpos₂
      rw [← hi] at hdrain₁ hcurrent
      rw [← hi₂] at hdrain₂
      rw [hdrain₁, hdrain₂, h.now, hcurrent]
      exact Timer.filter_map_rename π (fun d => w₁.wheel.now < d) _
    · have hi₂ : i ≠ w₂.wheel.now % w₂.wheel.slots := by rw [h.now, h.slots]; exact hi
      rw [HierarchicalTimingWheel.bucket_drain_of_ne hi, HierarchicalTimingWheel.bucket_drain_of_ne hi₂]
      exact h.bucket i

/-! ## Re-homing -/

section Filter

variable {l l₁ l₂ : List (Timer κ)}

/-- Of the timers with one deadline, a test of the deadline selects all or none. -/
theorem filter_deadline (p : ℕ → Bool) (D : ℕ) (l : List (Timer κ)) :
    ((l.filter fun t => p t.deadline).filter fun t => t.deadline = D) =
      if p D then l.filter fun t => t.deadline = D else [] := by
  rw [List.filter_filter]
  split
  · next hp =>
    refine List.filter_congr fun t _ => ?_
    by_cases ht : t.deadline = D <;> simp [ht, hp]
  · next hp =>
    rw [List.filter_eq_nil_iff]
    intro t _
    by_cases ht : t.deadline = D <;> simp [ht, hp]

/-- Where the timers with each deadline correspond to each other, so do those that pass a test that
only one deadline passes. -/
theorem filter_of_deadlines (h : ∀ D, (l₂.filter fun t => t.deadline = D) =
      (l₁.filter fun t => t.deadline = D).map (Timer.rename π)) (p : ℕ → Bool)
    (hone : ∀ t ∈ l₁, ∀ u ∈ l₁, p t.deadline → p u.deadline → t.deadline = u.deadline) :
    (l₂.filter fun t => p t.deadline) = (l₁.filter fun t => p t.deadline).map (Timer.rename π) := by
  -- a timer of the second list has the deadline of one of the first
  have hmem : ∀ u ∈ l₂, ∃ t ∈ l₁, t.deadline = u.deadline := by
    intro u hu
    have hfilter : u ∈ l₂.filter fun t => t.deadline = u.deadline :=
      List.mem_filter.mpr ⟨hu, decide_eq_true rfl⟩
    rw [h u.deadline, List.mem_map] at hfilter
    obtain ⟨t, ht, -⟩ := hfilter
    obtain ⟨ht, hd⟩ := List.mem_filter.mp ht
    exact ⟨t, ht, of_decide_eq_true hd⟩
  by_cases hany : ∃ t ∈ l₁, p t.deadline = true
  · obtain ⟨t, ht, hpt⟩ := hany
    have hiff₁ : ∀ u ∈ l₁, p u.deadline = decide (u.deadline = t.deadline) := by
      intro u hu
      by_cases hd : u.deadline = t.deadline
      · simp [hd, hpt]
      · have hpu : ¬ p u.deadline = true := fun hpu => hd (hone u hu t ht hpu hpt)
        simp [hd, hpu]
    have hiff₂ : ∀ u ∈ l₂, p u.deadline = decide (u.deadline = t.deadline) := by
      intro u hu
      obtain ⟨v, hv, hd⟩ := hmem u hu
      rw [← hd]
      exact hiff₁ v hv
    rw [List.filter_congr hiff₁, List.filter_congr hiff₂]
    exact h t.deadline
  · have hnone₁ : (l₁.filter fun t => p t.deadline) = [] := by
      rw [List.filter_eq_nil_iff]
      exact fun t ht hp => hany ⟨t, ht, hp⟩
    have hnone₂ : (l₂.filter fun t => p t.deadline) = [] := by
      rw [List.filter_eq_nil_iff]
      intro u hu hp
      obtain ⟨t, ht, hd⟩ := hmem u hu
      exact hany ⟨t, ht, by rw [hd]; exact hp⟩
    rw [hnone₁, hnone₂]
    rfl

end Filter

/-- A re-homing never puts timers with different deadlines into one bucket. -/
theorem Twin.rehomed (h : Twin π w₁ w₂) (hinv : w₁.Inv [] (w₁.wheel.now / w₁.wheel.slots))
    (hlast : w₁.wheel.now % w₁.wheel.slots = w₁.wheel.slots - 1) (i : ℕ) :
    w₂.wheel.overflow.filter (w₂.wheel.goesTo i) =
      (w₁.wheel.overflow.filter (w₁.wheel.goesTo i)).map (Timer.rename π) := by
  unfold HierarchicalTimingWheel.goesTo
  rw [h.now, h.slots]
  apply filter_of_deadlines h.overflow
    (fun d => d < w₁.wheel.now + w₁.wheel.slots ∧ d % w₁.wheel.slots = i)
  intro t ht u hu hpt hpu
  obtain ⟨htr, htm⟩ := of_decide_eq_true hpt
  obtain ⟨hur, hum⟩ := of_decide_eq_true hpu
  have htle := le_deadline_of_inOverflow hinv.pos hlast (hinv.overflow t ht)
  have hule := le_deadline_of_inOverflow hinv.pos hlast (hinv.overflow u hu)
  rcases Nat.le_total t.deadline u.deadline with hle | hle
  · exact (eq_of_mod_eq (hum.trans htm.symm) hle (by omega)).symm
  · exact eq_of_mod_eq (htm.trans hum.symm) hle (by omega)

theorem Twin.kept (h : Twin π w₁ w₂) (D : ℕ) :
    ((w₂.wheel.overflow.filter w₂.wheel.overflows).filter fun t => t.deadline = D) =
      ((w₁.wheel.overflow.filter w₁.wheel.overflows).filter fun t => t.deadline = D).map
        (Timer.rename π) := by
  have hkept₁ := filter_deadline (fun d => w₁.wheel.now + w₁.wheel.slots ≤ d) D w₁.wheel.overflow
  have hkept₂ := filter_deadline (fun d => w₁.wheel.now + w₁.wheel.slots ≤ d) D w₂.wheel.overflow
  unfold HierarchicalTimingWheel.overflows
  rw [h.now, h.slots, hkept₁, hkept₂, h.overflow]
  split <;> rfl

theorem Twin.endTick (h : Twin π w₁ w₂) (hinv : w₁.Inv [] (w₁.wheel.now / w₁.wheel.slots)) :
    Twin π { w₁ with wheel := w₁.wheel.endTick } { w₂ with wheel := w₂.wheel.endTick } := by
  have hpos := hinv.pos
  have hpos₂ : 0 < w₂.wheel.slots := by rw [h.slots]; exact hpos
  by_cases hlast : w₁.wheel.now % w₁.wheel.slots = w₁.wheel.slots - 1
  · have hlast₂ : w₂.wheel.now % w₂.wheel.slots = w₂.wheel.slots - 1 := by rw [h.now, h.slots, hlast]
    obtain ⟨hs₁, hn₁, hz₁⟩ := w₁.wheel.endTick_frame
    obtain ⟨hs₂, hn₂, hz₂⟩ := w₂.wheel.endTick_frame
    refine ⟨?_, ?_, ?_, ?_, ?_, h.created, h.fresh, h.flags, h.calls⟩
    · rw [hs₁, hs₂, h.slots]
    · rw [hn₁, hn₂, h.now]
    · rw [hz₁, hz₂, h.size]
    · intro i
      show w₂.wheel.endTick.bucket i = (w₁.wheel.endTick.bucket i).map _
      rw [HierarchicalTimingWheel.bucket_endTick hpos hlast,
        HierarchicalTimingWheel.bucket_endTick hpos₂ hlast₂, List.map_append, h.bucket,
        h.rehomed hinv hlast]
    · intro D
      show w₂.wheel.endTick.overflow.filter _ = (w₁.wheel.endTick.overflow.filter _).map _
      rw [HierarchicalTimingWheel.overflow_endTick hlast,
        HierarchicalTimingWheel.overflow_endTick hlast₂]
      exact h.kept D
  · have hlast₂ : w₂.wheel.now % w₂.wheel.slots ≠ w₂.wheel.slots - 1 := by
      rw [h.now, h.slots]
      exact hlast
    rw [HierarchicalTimingWheel.endTick_of_ne hlast, HierarchicalTimingWheel.endTick_of_ne hlast₂]
    exact h

/-! ## Rounds and runs -/

theorem Twin.round (h : Twin π w₁ w₂) (henv : ActAlike π env₁ env₂) (hok : w₁.Ok) :
    (round env₂ w₂).1 = (round env₁ w₁).1 ∧ Twin π (round env₁ w₁).2 (round env₂ w₂).2 := by
  set v₁ : HierarchicalTimingWheel κ := { w₁.wheel with now := w₁.wheel.now + 1 } with hv₁
  set v₂ : HierarchicalTimingWheel κ := { w₂.wheel with now := w₂.wheel.now + 1 } with hv₂
  have hclock : Twin π { w₁ with wheel := v₁ } { w₂ with wheel := v₂ } := by
    refine ⟨h.slots, ?_, h.size, h.bucket, h.overflow, h.created, h.fresh, h.flags, h.calls⟩
    show w₂.wheel.now + 1 = w₁.wheel.now + 1
    rw [h.now]
  obtain ⟨hdue, hdrain⟩ := hclock.drain hok.pos
  obtain ⟨hfired, hturns⟩ := hdrain.turns henv hok.pos v₁.drain.1 0
  -- the overflow timers are not overdue when the tick ends
  obtain ⟨hinv, -⟩ := (Inv.drain hok hv₁).1.turns_foldl env₁ 0
  obtain ⟨-, -, -, hs, hn, -, -⟩ := turns_foldl_log env₁ v₁.drain.1 0 { w₁ with wheel := v₁.drain.2 }
  have hedge : revolution w₁.wheel.slots w₁.wheel.now =
      (v₁.drain.1.foldl (World.turn env₁) (0, { w₁ with wheel := v₁.drain.2 })).2.wheel.now /
        (v₁.drain.1.foldl (World.turn env₁) (0, { w₁ with wheel := v₁.drain.2 })).2.wheel.slots := by
    rw [hs, hn]
    rfl
  rw [hedge] at hinv
  rw [round_eq env₁ w₁ hv₁ rfl, round_eq env₂ w₂ hv₂ rfl]
  have hdue₂ : v₂.drain.1 = v₁.drain.1.map (Timer.rename π) := hdue
  rw [hdue₂]
  exact ⟨hfired, hturns.endTick hinv⟩

theorem Twin.advanceLoop (h : Twin π w₁ w₂) (henv : ActAlike π env₁ env₂) (hok : w₁.Ok) (target : ℤ)
    (n fired : ℕ) :
    (advanceLoop env₂ target n fired w₂).1 = (advanceLoop env₁ target n fired w₁).1 ∧
      Twin π (advanceLoop env₁ target n fired w₁).2 (advanceLoop env₂ target n fired w₂).2 := by
  induction n generalizing w₁ w₂ fired with
  | zero => exact ⟨rfl, h⟩
  | succ n ih =>
    obtain ⟨hfired, hround⟩ := h.round henv hok
    obtain ⟨hok', -, -⟩ := hok.round env₁
    rw [advanceLoop_succ, advanceLoop_succ, h.now, hfired]
    split
    · exact ih hround hok' _
    · exact ⟨rfl, h⟩

theorem Twin.advance (h : Twin π w₁ w₂) (henv : ActAlike π env₁ env₂) (hok : w₁.Ok) (target : ℤ) :
    (w₂.advance env₂ target).1 = (w₁.advance env₁ target).1 ∧
      Twin π (w₁.advance env₁ target).2 (w₂.advance env₂ target).2 := by
  unfold World.advance
  rw [h.now]
  exact h.advanceLoop henv hok target _ 0

theorem Twin.op (h : Twin π w₁ w₂) (henv : ActAlike π env₁ env₂) (hok : w₁.Ok) (o : Op κ) :
    Twin π (op env₁ w₁ o) (op env₂ w₂ (Op.rename π o)) := by
  cases o with
  | schedule delay callback =>
    show Twin π _ (World.op env₂ w₂ (.schedule delay callback))
    by_cases hd : delay < 0
    · rw [op_schedule_of_neg env₁ w₁ callback hd, op_schedule_of_neg env₂ w₂ callback hd]
      exact h
    · rw [op_schedule_of_nonneg env₁ w₁ callback hd, op_schedule_of_nonneg env₂ w₂ callback hd]
      exact h.register hok.pos delay.toNat callback
  | setCancelled id cancelled => exact h.setCancelled id cancelled
  | advance target => exact (h.advance henv hok target).2

theorem Twin.run (h : Twin π w₁ w₂) (henv : ActAlike π env₁ env₂) (hok : w₁.Ok) (ops : List (Op κ)) :
    Twin π (run env₁ w₁ ops) (run env₂ w₂ (ops.map (Op.rename π))) := by
  induction ops generalizing w₁ w₂ with
  | nil => exact h
  | cons o ops ih => exact ih (h.op henv hok o) (hok.op env₁ o).1

/-! ## Two calls of `schedule` -/

theorem rename_of_lt {n : ℕ} {t : Timer κ} (ht : t.id < n) :
    t.rename (Equiv.swap n (n + 1)) = t := by
  unfold Timer.rename
  rw [Equiv.swap_apply_of_ne_of_ne (by omega) (by omega)]

theorem map_rename_of_lt {n : ℕ} {l : List (Timer κ)} (hl : ∀ t ∈ l, t.id < n) :
    l.map (Timer.rename (Equiv.swap n (n + 1))) = l := by
  rw [List.map_congr_left fun t ht => rename_of_lt (hl t ht), List.map_id']

section Schedule

variable {delay delay' delayA delayB : ℕ} {callback callback' : κ} (callbackA callbackB : κ)

/-- The timer that is scheduled first has the name that it has when it is scheduled second. -/
theorem rename_first :
    (w.nextTimer delay callback).rename (Equiv.swap w.created (w.created + 1)) =
      (w.register delay' callback').nextTimer delay callback := by
  unfold Timer.rename nextTimer
  rw [now_register]
  simp [World.register]

theorem rename_second :
    ((w.register delay' callback').nextTimer delay callback).rename
        (Equiv.swap w.created (w.created + 1)) = w.nextTimer delay callback := by
  unfold Timer.rename nextTimer
  rw [now_register]
  simp [World.register]

theorem bucket_register_two (hpos : 0 < w.wheel.slots) (i : ℕ) :
    ((w.register delay callback).register delay' callback').wheel.bucket i = w.wheel.bucket i ++
      (if delay < w.wheel.slots ∧ (w.wheel.now + delay) % w.wheel.slots = i then
        [w.nextTimer delay callback] else []) ++
      if delay' < w.wheel.slots ∧ (w.wheel.now + delay') % w.wheel.slots = i then
        [(w.register delay callback).nextTimer delay' callback'] else [] := by
  rw [bucket_register (by rw [slots_register]; exact hpos), bucket_register hpos, slots_register,
    now_register]

theorem overflow_register_two :
    ((w.register delay callback).register delay' callback').wheel.overflow = w.wheel.overflow ++
      (if w.wheel.slots ≤ delay then [w.nextTimer delay callback] else []) ++
      if w.wheel.slots ≤ delay' then [(w.register delay callback).nextTimer delay' callback']
      else [] := by
  rw [overflow_register, overflow_register, slots_register]

theorem bucket_comm (hok : w.Ok) (hne : delayA ≠ delayB) (i : ℕ) :
    ((w.register delayB callbackB).register delayA callbackA).wheel.bucket i =
      (((w.register delayA callbackA).register delayB callbackB).wheel.bucket i).map
        (Timer.rename (Equiv.swap w.created (w.created + 1))) := by
  have hold := map_rename_of_lt fun t (ht : t ∈ w.wheel.bucket i) =>
    hok.id_lt (mem_timers_iff.mpr (Or.inl (HierarchicalTimingWheel.mem_held_iff.mpr (Or.inl ⟨i, ht⟩))))
  rw [bucket_register_two hok.pos, bucket_register_two hok.pos, List.map_append, List.map_append, hold,
    List.append_assoc, List.append_assoc]
  refine congrArg (w.wheel.bucket i ++ ·) ?_
  by_cases hA : delayA < w.wheel.slots ∧ (w.wheel.now + delayA) % w.wheel.slots = i
  · -- two near timers in one bucket would have the same deadline
    have hB : ¬ (delayB < w.wheel.slots ∧ (w.wheel.now + delayB) % w.wheel.slots = i) := by
      rintro ⟨hlt, hmod⟩
      rcases Nat.le_total delayA delayB with hle | hle
      · have := eq_of_mod_eq (hmod.trans hA.2.symm) (by omega) (by omega)
        omega
      · have := eq_of_mod_eq (hA.2.trans hmod.symm) (by omega) (by omega)
        omega
    rw [if_pos hA, if_neg hB, if_pos hA, if_neg hB, List.map_singleton, rename_first]
    rfl
  · rw [if_neg hA, if_neg hA, List.append_nil]
    split
    · rw [List.map_singleton, rename_second]
      rfl
    · rfl

theorem map_of_if {p : Prop} [Decidable p] {f : Timer κ → Timer κ} {t u : Timer κ} (h : f t = u) :
    (if p then [t] else []).map f = if p then [u] else [] := by
  split
  · rw [List.map_singleton, h]
  · rfl

theorem filter_of_if {p : Prop} [Decidable p] {t : Timer κ} {D : ℕ} (h : t.deadline ≠ D) :
    ((if p then [t] else []).filter fun t => t.deadline = D) = [] := by
  split
  · simpa using h
  · rfl

theorem overflow_comm (hok : w.Ok) (hne : delayA ≠ delayB) (D : ℕ) :
    (((w.register delayB callbackB).register delayA callbackA).wheel.overflow.filter
        fun t => t.deadline = D) =
      (((w.register delayA callbackA).register delayB callbackB).wheel.overflow.filter
        fun t => t.deadline = D).map (Timer.rename (Equiv.swap w.created (w.created + 1))) := by
  have hold := map_rename_of_lt fun t (ht : t ∈ w.wheel.overflow) =>
    hok.id_lt (mem_timers_iff.mpr (Or.inl (HierarchicalTimingWheel.mem_held_iff.mpr (Or.inr ht))))
  have hfirst : Timer.rename (Equiv.swap w.created (w.created + 1)) (w.nextTimer delayA callbackA) =
      (w.register delayB callbackB).nextTimer delayA callbackA := rename_first
  have hsecond : Timer.rename (Equiv.swap w.created (w.created + 1))
      ((w.register delayA callbackA).nextTimer delayB callbackB) = w.nextTimer delayB callbackB :=
    rename_second
  rw [← Timer.filter_map_rename _ (fun d => d = D)]
  rw [overflow_register_two, overflow_register_two, List.map_append, List.map_append, hold,
    map_of_if hfirst, map_of_if hsecond]
  simp only [List.filter_append, List.append_assoc]
  refine congrArg ((w.wheel.overflow.filter fun t => t.deadline = D) ++ ·) ?_
  -- at most one of the two timers has the deadline
  by_cases hD : w.wheel.now + delayA = D
  · have hB : (w.nextTimer delayB callbackB).deadline ≠ D := by
      show w.wheel.now + delayB ≠ D
      omega
    rw [filter_of_if hB, List.nil_append, List.append_nil]
  · have hA : ((w.register delayB callbackB).nextTimer delayA callbackA).deadline ≠ D := by
      rw [← hfirst]
      exact hD
    rw [filter_of_if hA, List.nil_append, List.append_nil]

/-- The two orders of the calls lead to worlds that are twins. -/
theorem twin_schedule (hok : w.Ok) (hcalls : w.calls = callsIn w.turns) (hne : delayA ≠ delayB) :
    Twin (Equiv.swap w.created (w.created + 1))
      ((w.register delayA callbackA).register delayB callbackB)
      ((w.register delayB callbackB).register delayA callbackA) := by
  refine ⟨?_, ?_, ?_, ?_, ?_, rfl, ?_, ?_, ?_⟩
  · simp only [slots_register]
  · simp only [now_register]
  · simp [World.register]
  · exact bucket_comm callbackA callbackB hok hne
  · exact overflow_comm callbackA callbackB hok hne
  · intro id hid
    have hid' : w.created + 2 ≤ id := hid
    exact Equiv.swap_apply_of_ne_of_ne (by omega) (by omega)
  · intro id
    show Function.update (Function.update w.cancelled w.created false) (w.created + 1) false _ =
      Function.update (Function.update w.cancelled w.created false) (w.created + 1) false id
    by_cases h₁ : id = w.created
    · simp [h₁]
    · by_cases h₂ : id = w.created + 1
      · simp [h₂]
      · rw [Equiv.swap_apply_of_ne_of_ne h₁ h₂]
  · show w.calls = w.calls.map _
    have hold : ∀ c ∈ w.calls, Call.rename (Equiv.swap w.created (w.created + 1)) c = c := by
      intro c hc
      rw [hcalls] at hc
      obtain ⟨x, hx, rfl⟩ := List.mem_map.mp hc
      have hmem := mem_timers_iff.mpr (Or.inr ⟨x, (List.mem_filter.mp hx).1, rfl⟩)
      unfold Call.rename
      rw [rename_of_lt (hok.id_lt hmem)]
    rw [List.map_congr_left hold, List.map_id']

end Schedule

/-- **Scheduling two timers with different delays commutes**: whatever is done afterwards, the same
callbacks run in the same ticks and in the same order, and every `advance` returns the same. The
renaming exchanges the two timers that the calls have returned. -/
theorem schedule_comm (slotsPerWheel levels : ℕ) (h : 0 < slotsPerWheel)
    (env : κ → World κ → List (Act κ)) (before : List (Op κ)) (w : World κ)
    (hw : w = run env (new slotsPerWheel levels) before) (delayA delayB : ℕ) (hne : delayA ≠ delayB)
    (callbackA callbackB : κ) (π : Equiv.Perm ℕ) (hπ : π = Equiv.swap w.created (w.created + 1))
    (env₁ env₂ : κ → World κ → List (Act κ)) (henv : ActAlike π env₁ env₂) (after : List (Op κ))
    (v₁ v₂ : World κ)
    (hv₁ : v₁ = run env₁ w (.schedule delayA callbackA :: .schedule delayB callbackB :: after))
    (hv₂ : v₂ = run env₂ w (.schedule delayB callbackB :: .schedule delayA callbackA ::
      after.map (Op.rename π))) :
    v₂.wheel.now = v₁.wheel.now ∧ v₂.wheel.size = v₁.wheel.size ∧
      v₂.calls = v₁.calls.map (Call.rename π) ∧
      ∀ target, (v₂.advance env₂ target).1 = (v₁.advance env₁ target).1 := by
  obtain ⟨hok, hcalls, -⟩ := ok_run slotsPerWheel levels h env before
  rw [← hw] at hok hcalls
  have htwin := twin_schedule callbackA callbackB hok hcalls hne
  rw [← hπ] at htwin
  have hok' := ((hok.register delayA callbackA).1.register delayB callbackB).1
  have hrun := htwin.run henv hok' after
  have hrun₁ : v₁ = run env₁ ((w.register delayA callbackA).register delayB callbackB) after := hv₁
  have hrun₂ : v₂ = run env₂ ((w.register delayB callbackB).register delayA callbackA)
      (after.map (Op.rename π)) := hv₂
  rw [← hrun₁, ← hrun₂] at hrun
  have hok₁ : v₁.Ok := by
    rw [hrun₁]
    exact (hok'.run env₁ after).1
  exact ⟨hrun.now, hrun.size, hrun.calls, fun target => (hrun.advance henv hok₁ target).1⟩

/-- A timer with delay 0 and one with delay 4 share a bucket of a wheel of 4 slots. -/
theorem schedule_comm_zero_four :
    (run (fun _ _ => []) (new 4 1 : World Unit) [.schedule 4 (), .schedule 0 (), .advance 4]).calls =
      (run (fun _ _ => []) (new 4 1 : World Unit)
        [.schedule 0 (), .schedule 4 (), .advance 4]).calls.map (Call.rename (Equiv.swap 0 1)) := by
  obtain ⟨-, -, hcalls, -⟩ := schedule_comm 4 1 (by decide) (fun (_ : Unit) _ => []) [] _ rfl 0 4
    (by decide) () () _ rfl (fun _ _ => []) (fun _ _ => []) (fun _ _ _ _ => rfl) [.advance 4] _ _ rfl rfl
  exact hcalls

end World

end DurableExecution
