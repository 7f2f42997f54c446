import Mathlib.Algebra.Ring.Nat
import Mathlib.Algebra.BigOperators.Group.List.Basic
import DurableExecution.Wheel.Work
import DurableExecution.Wheel.Proofs.InvariantProofs

/-!
# Proofs: the work of the wheel

Each timer pays for all looks at it when it is scheduled. Its credit is one look in a bucket, and in
the overflow list one look more for each revolution that is still to be completed up to its deadline.
-/

namespace DurableExecution

namespace World

open Amortized

variable {κ : Type} {w : World κ} {p : List (Timer κ)} {edge : ℕ}

/-- A world in the middle of a tick. Re-homing was done for the revolutions up to `edge`. -/
structure Stage (κ : Type) where
  world : World κ
  pending : List (Timer κ)
  edge : ℕ

/-- The looks that are still to come. -/
def credit (s : Stage κ) : ℕ :=
  s.world.wheel.buckets.flatten.length +
    (s.world.wheel.overflow.map fun t =>
      revolution s.world.wheel.slots t.deadline - s.edge + 1).sum

/-- The looks that were paid for. -/
def paid (s : Stage κ) : ℕ :=
  ((s.world.timers s.pending).map (Timer.looks s.world.wheel.slots)).sum

/-- The stage between ticks. -/
def between (w : World κ) : Stage κ := ⟨w, [], revolution w.wheel.slots w.wheel.now⟩

theorem credit_mk (w : World κ) (p : List (Timer κ)) (edge : ℕ) :
    credit ⟨w, p, edge⟩ = w.wheel.buckets.flatten.length +
      (w.wheel.overflow.map fun t => revolution w.wheel.slots t.deadline - edge + 1).sum := rfl

theorem paid_mk (w : World κ) (p : List (Timer κ)) (edge : ℕ) :
    paid ⟨w, p, edge⟩ = ((w.timers p).map (Timer.looks w.wheel.slots)).sum := rfl

theorem paid_eq_of_perm {v : World κ} {q : List (Timer κ)} {edge' : ℕ}
    (hslots : v.wheel.slots = w.wheel.slots) (h : (v.timers q).Perm (w.timers p)) :
    paid ⟨v, q, edge'⟩ = paid ⟨w, p, edge⟩ := by
  rw [paid_mk, paid_mk, hslots]
  exact (h.map _).sum_nat

/-! ## Scheduling -/

/-- The revolutions that a timer waits for are covered by its delay. -/
theorem waits_le {slots now delay : ℕ} (hpos : 0 < slots) (hedge : now / slots ≤ edge) :
    revolution slots (now + delay) - edge ≤ delay / slots + 1 := by
  have hnow := Nat.lt_mul_div_succ now hpos
  have hdelay := Nat.lt_mul_div_succ delay hpos
  have hdiv : revolution slots (now + delay) < now / slots + 1 + (delay / slots + 1) := by
    rw [revolution, Nat.div_lt_iff_lt_mul hpos, Nat.mul_comm, Nat.mul_add]
    omega
  generalize now / slots = q at hedge hdiv
  generalize delay / slots = d at hdiv ⊢
  omega

theorem covered_register (hpos : 0 < w.wheel.slots) (hedge : w.wheel.now / w.wheel.slots ≤ edge)
    (delay : ℕ) (callback : κ) :
    Covered credit paid ⟨w, p, edge⟩ 0 ⟨w.register delay callback, p, edge⟩ := by
  set t := w.nextTimer delay callback with ht
  have hheld := (HierarchicalTimingWheel.held_place hpos t).length_eq
  have hcount : (w.register delay callback).wheel.buckets.flatten.length +
      (w.register delay callback).wheel.overflow.length =
        w.wheel.buckets.flatten.length + w.wheel.overflow.length + 1 := by
    unfold HierarchicalTimingWheel.held at hheld
    simp only [List.length_append, List.length_cons] at hheld
    exact hheld
  have hpaid : paid ⟨w.register delay callback, p, edge⟩ =
      t.looks w.wheel.slots + paid ⟨w, p, edge⟩ := by
    rw [paid_mk, paid_mk, slots_register, ((timers_register hpos delay callback).map _).sum_nat,
      List.map_cons, List.sum_cons]
  have hover := overflow_register w delay callback
  unfold Covered
  rw [hpaid, credit_mk, credit_mk, slots_register, hover]
  rw [hover] at hcount
  by_cases hnear : delay < w.wheel.slots
  · have hlooks : t.looks w.wheel.slots = 1 := if_pos hnear
    rw [if_neg (by omega), List.append_nil] at hcount ⊢
    omega
  · have hlooks : t.looks w.wheel.slots = delay / w.wheel.slots + 2 := if_neg hnear
    have hwaits : revolution w.wheel.slots t.deadline - edge ≤ delay / w.wheel.slots + 1 :=
      waits_le hpos hedge
    rw [if_pos (by omega), ← ht] at hcount ⊢
    rw [List.length_append, List.length_singleton] at hcount
    rw [List.map_append, List.sum_append, List.map_cons, List.map_nil, List.sum_cons, List.sum_nil]
    omega

/-! ## Callbacks and turns -/

theorem covered_acts (hpos : 0 < w.wheel.slots) (hedge : w.wheel.now / w.wheel.slots ≤ edge)
    (as : List (Act κ)) : Covered credit paid ⟨w, p, edge⟩ 0 ⟨as.foldl act w, p, edge⟩ := by
  induction as generalizing w with
  | nil => exact .refl _
  | cons a as ih =>
    have hframe := frame_act w a
    have hrest := ih (w := w.act a) (by rw [hframe.slots]; exact hpos)
      (by rw [hframe.slots, hframe.now]; exact hedge)
    cases a with
    | schedule delay callback => exact (covered_register hpos hedge delay callback).trans hrest
    | setCancelled id cancelled => exact hrest

theorem covered_called (hpos : 0 < w.wheel.slots) (hedge : w.wheel.now / w.wheel.slots ≤ edge)
    (env : κ → World κ → List (Act κ)) (t : Timer κ) :
    Covered credit paid ⟨w, p, edge⟩ 0 ⟨called env w t, p, edge⟩ := by
  unfold called
  split
  · exact .refl _
  · exact covered_acts (w := w.logged t) hpos hedge _

/-- The turn of a timer: what it has paid stays paid. -/
theorem covered_turn (hpos : 0 < w.wheel.slots) (hedge : w.wheel.now / w.wheel.slots ≤ edge)
    (env : κ → World κ → List (Act κ)) (fired : ℕ) (t : Timer κ) :
    Covered credit paid ⟨w, t :: p, edge⟩ 0 ⟨(turn env (fired, w) t).2, p, edge⟩ := by
  have hcalled := covered_called (p := t :: p) hpos hedge env t
  rw [turn_eq]
  set v := called env w t
  set u : World κ := { v with
    wheel := { v.wheel with size := v.wheel.size - 1 }
    turns := v.turns ++ [turnOf env w t] } with hu
  have htimers : (u.timers p).Perm (v.timers (t :: p)) := by
    have hlast := List.perm_append_singleton t (p ++ v.turns.map (·.timer))
    rw [List.append_assoc] at hlast
    simp only [hu, timers, List.map_append, List.map_cons, List.map_nil, List.cons_append]
    exact hlast.append_left v.wheel.held
  have hpaid : paid ⟨u, p, edge⟩ = paid ⟨v, t :: p, edge⟩ := paid_eq_of_perm rfl htimers
  have hcredit : credit ⟨u, p, edge⟩ = credit ⟨v, t :: p, edge⟩ := rfl
  unfold Covered at hcalled ⊢
  rw [hpaid, hcredit]
  exact hcalled

theorem covered_turns (env : κ → World κ → List (Act κ)) (due : List (Timer κ))
    (hpos : 0 < w.wheel.slots) (hedge : w.wheel.now / w.wheel.slots ≤ edge) (fired : ℕ) :
    Covered credit paid ⟨w, due, edge⟩ 0 ⟨(due.foldl (turn env) (fired, w)).2, [], edge⟩ := by
  induction due generalizing w fired with
  | nil => exact .refl _
  | cons t due ih =>
    obtain ⟨hslots, hnow, -⟩ := called_frame env w t
    have hone := covered_turn (p := due) hpos hedge env fired t
    rw [turn_eq] at hone
    rw [List.foldl_cons, turn_eq]
    exact hone.trans (ih (by rw [← hslots] at hpos; exact hpos)
      (by rw [← hslots, ← hnow] at hedge; exact hedge) _)

/-! ## The beginning and the end of a tick -/

/-- All timers of the current bucket are taken off it, so each is looked at once. -/
theorem covered_drain {v : HierarchicalTimingWheel κ} (hw : w.Ok)
    (hv : v = { w.wheel with now := w.wheel.now + 1 }) :
    Covered credit paid (between w) (v.bucket (v.now % v.slots)).length
      ⟨{ w with wheel := v.drain.2 }, v.drain.1, revolution w.wheel.slots w.wheel.now⟩ := by
  have hdue : v.drain.1 = v.bucket (v.now % v.slots) := by
    rw [HierarchicalTimingWheel.drain, List.filter_eq_self]
    intro t ht
    have hfires := fires_of_mem_current hw hv ht
    have := t.le_fires v.slots
    exact decide_eq_true (by omega)
  have hheld := (HierarchicalTimingWheel.held_drain (w := v) (by rw [hv]; exact hw.pos)).length_eq
  have hover : v.drain.2.overflow = v.overflow := rfl
  have htimers := timers_drain hw.pos hv []
  rw [List.append_nil] at htimers
  have hslots : v.drain.2.slots = w.wheel.slots := by
    rw [hv]
    rfl
  have hpaid : paid ⟨{ w with wheel := v.drain.2 }, v.drain.1, revolution w.wheel.slots w.wheel.now⟩ =
      paid (between w) := paid_eq_of_perm hslots htimers
  unfold HierarchicalTimingWheel.held at hheld
  rw [List.length_append, List.length_append, List.length_append, hover, hdue] at hheld
  unfold Covered
  rw [hpaid]
  unfold between
  simp only [credit_mk, hover, hslots]
  have hbuckets : v.buckets = w.wheel.buckets := by rw [hv]
  have hoverflow : v.overflow = w.wheel.overflow := by rw [hv]
  rw [hbuckets] at hheld
  rw [hoverflow]
  omega

/-- Each timer of the overflow list is looked at, and one revolution less is to be completed. -/
theorem rehome_le {slots edge : ℕ} (keep : Timer κ → Bool) (ts : List (Timer κ))
    (h : ∀ t ∈ ts, t.InOverflow slots edge) :
    ts.length + (ts.length - (ts.filter keep).length) +
        ((ts.filter keep).map fun t => revolution slots t.deadline - (edge + 1) + 1).sum ≤
      (ts.map fun t => revolution slots t.deadline - edge + 1).sum := by
  induction ts with
  | nil => simp
  | cons t ts ih =>
    obtain ⟨ht, hrest⟩ := List.forall_mem_cons.mp h
    have hwaits := ht.waits
    have hlen : (ts.filter keep).length ≤ ts.length := List.length_filter_le _ _
    have hih := ih hrest
    cases hkeep : keep t with
    | true =>
      rw [List.filter_cons_of_pos hkeep]
      simp only [List.length_cons, List.map_cons, List.sum_cons]
      omega
    | false =>
      rw [List.filter_cons_of_neg (by simp [hkeep])]
      simp only [List.length_cons, List.map_cons, List.sum_cons]
      omega

theorem covered_endTick (hw : w.Inv [] (w.wheel.now / w.wheel.slots)) :
    Covered credit paid ⟨w, [], w.wheel.now / w.wheel.slots⟩
      (if w.wheel.now % w.wheel.slots = w.wheel.slots - 1 then w.wheel.overflow.length else 0)
      (between { w with wheel := w.wheel.endTick }) := by
  obtain ⟨hslots, hnow, -⟩ := w.wheel.endTick_frame
  have hheld := HierarchicalTimingWheel.held_endTick hw.pos
  have htimers : (({ w with wheel := w.wheel.endTick } : World κ).timers []).Perm (w.timers []) :=
    hheld.append_right _
  have hpaid : paid (between { w with wheel := w.wheel.endTick }) =
      paid ⟨w, [], w.wheel.now / w.wheel.slots⟩ := paid_eq_of_perm hslots htimers
  unfold Covered
  rw [hpaid]
  unfold between
  simp only [credit_mk, hslots, hnow]
  by_cases hlast : w.wheel.now % w.wheel.slots = w.wheel.slots - 1
  · have hdvd : w.wheel.slots ∣ w.wheel.now + 1 :=
      Nat.dvd_of_mod_eq_zero ((mod_eq_last_iff hw.pos).mp hlast)
    have hedge : revolution w.wheel.slots w.wheel.now = w.wheel.now / w.wheel.slots + 1 :=
      Nat.succ_div_of_dvd hdvd
    have hover := HierarchicalTimingWheel.overflow_endTick hlast
    have hle := rehome_le w.wheel.overflows w.wheel.overflow hw.overflow
    have hlen := hheld.length_eq
    have hfilter : (w.wheel.overflow.filter w.wheel.overflows).length ≤ w.wheel.overflow.length :=
      List.length_filter_le _ _
    unfold HierarchicalTimingWheel.held at hlen
    rw [List.length_append, List.length_append, hover] at hlen
    rw [if_pos hlast, hedge, hover]
    omega
  · have hedge : revolution w.wheel.slots w.wheel.now = w.wheel.now / w.wheel.slots :=
      revolution_of_ne hw.pos hlast
    rw [if_neg hlast, hedge, HierarchicalTimingWheel.endTick_of_ne hlast]
    omega

/-! ## Ticks and runs -/

/-- **The looks of a tick are covered.** -/
theorem covered_round (hw : w.Ok) (env : κ → World κ → List (Act κ)) :
    Covered credit paid (between w)
      (tickLooks env { w with wheel := { w.wheel with now := w.wheel.now + 1 } })
      (between (round env w).2) := by
  set v : HierarchicalTimingWheel κ := { w.wheel with now := w.wheel.now + 1 } with hv
  obtain ⟨hdrain, -⟩ := Inv.drain hw hv
  obtain ⟨hinv, -⟩ := hdrain.turns_foldl env 0
  obtain ⟨-, -, -, hs, hn, -⟩ := turns_foldl_log env v.drain.1 0 { w with wheel := v.drain.2 }
  have hbegin := covered_drain hw hv
  have hslots : 0 < v.drain.2.slots := hw.pos
  have hnow : v.drain.2.now / v.drain.2.slots ≤ revolution w.wheel.slots w.wheel.now := Nat.le_refl _
  have hturns := covered_turns env (w := { w with wheel := v.drain.2 }) v.drain.1 hslots hnow 0
  set u := v.drain.1.foldl (turn env) (0, { w with wheel := v.drain.2 }) with hu
  have hedge : revolution w.wheel.slots w.wheel.now = u.2.wheel.now / u.2.wheel.slots := by
    rw [hs, hn]
    rfl
  rw [hedge] at hinv hturns hbegin
  have hend := covered_endTick hinv
  have hall := (hbegin.trans hturns).trans hend
  rw [round_eq env w hv hu]
  rw [Nat.add_zero] at hall
  exact hall

theorem covered_advanceLoop (env : κ → World κ → List (Act κ)) (target : ℤ) (n fired : ℕ)
    (hw : w.Ok) :
    Covered credit paid (between w) (advanceLooks env target n w)
      (between (advanceLoop env target n fired w).2) := by
  induction n generalizing w fired with
  | zero => exact .refl _
  | succ n ih =>
    rw [advanceLoop_succ, advanceLooks]
    by_cases hlt : (w.wheel.now : ℤ) < target
    · rw [if_pos hlt, if_pos hlt]
      exact (covered_round hw env).trans (ih _ (hw.round env).1)
    · rw [if_neg hlt, if_neg hlt]
      exact .refl _

theorem covered_op (hw : w.Ok) (env : κ → World κ → List (Act κ)) (o : Op κ) :
    Covered credit paid (between w) (opLooks env w o) (between (op env w o)) := by
  cases o with
  | schedule delay callback =>
    by_cases hneg : delay < 0
    · rw [op_schedule_of_neg env w callback hneg]
      exact .refl _
    · have hedge : w.wheel.now / w.wheel.slots ≤ revolution w.wheel.slots w.wheel.now :=
        Nat.div_le_div_right (Nat.le_succ _)
      have hregister := covered_register (p := []) hw.pos hedge delay.toNat callback
      rw [op_schedule_of_nonneg env w callback hneg]
      unfold between
      rw [slots_register, now_register]
      exact hregister
  | setCancelled id cancelled =>
    show Covered credit paid (between w) 0 (between w)
    exact .refl _
  | advance target => exact covered_advanceLoop env target _ 0 hw

theorem looks_le_paid (slotsPerWheel levels : ℕ) (h : 0 < slotsPerWheel)
    (env : κ → World κ → List (Act κ)) (ops : List (Op κ)) :
    runLooks env (.new slotsPerWheel levels) ops ≤
      paid (between (run env (.new slotsPerWheel levels) ops)) := by
  have hstep : ∀ (w : World κ) (o : Op κ), w.Ok → (op env w o).Ok ∧
      Covered (fun w => credit (between w)) (fun w => paid (between w)) w (opLooks env w o)
        (op env w o) := fun w o hw => ⟨(hw.op env o).1, covered_op hw env o⟩
  have hcovered : Covered (fun w => credit (between w)) (fun w => paid (between w))
      (new slotsPerWheel levels) (totalWork (op env) (opLooks env) (new slotsPerWheel levels) ops)
      (ops.foldl (op env) (new slotsPerWheel levels)) :=
    totalWork_covered hstep (ok_new slotsPerWheel levels h) ops
  have hcredit : credit (between (new slotsPerWheel levels : World κ)) = 0 := by
    simp [between, credit_mk, new, HierarchicalTimingWheel.withConfig]
  have hpaid : paid (between (new slotsPerWheel levels : World κ)) = 0 := by
    simp [between, paid_mk, new, HierarchicalTimingWheel.withConfig, timers,
      HierarchicalTimingWheel.held]
  unfold Covered at hcovered
  simp only [hcredit, hpaid] at hcovered
  unfold runLooks run
  omega

/-- **Amortised work.** In every run, with any callbacks, the wheel looks at most once at each near
timer, and at a far one at most once for each revolution of its delay and twice more. So when all
timers are near, it looks at no more timers than were scheduled. -/
theorem looks_bounded (slotsPerWheel levels : ℕ) (h : 0 < slotsPerWheel)
    (env : κ → World κ → List (Act κ)) (ops : List (Op κ)) :
    let w := run env (.new slotsPerWheel levels) ops
    runLooks env (.new slotsPerWheel levels) ops ≤
        ((w.timers []).map (Timer.looks (slotsPerWheel * max levels 1))).sum ∧
      ((∀ t ∈ w.timers [], t.delay < slotsPerWheel * max levels 1) →
        runLooks env (.new slotsPerWheel levels) ops ≤ w.created) := by
  intro w
  have hle := looks_le_paid slotsPerWheel levels h env ops
  obtain ⟨hok, turns, hev⟩ := Ok.run (ok_new slotsPerWheel levels h) env ops
  have hslots : w.wheel.slots = slotsPerWheel * max levels 1 := hev.slots
  rw [between, paid_mk, hslots] at hle
  refine ⟨hle, fun hnear => ?_⟩
  have hones : (w.timers []).map (Timer.looks (slotsPerWheel * max levels 1)) =
      (w.timers []).map fun _ => 1 := by
    apply List.map_congr_left
    intro t ht
    exact if_pos (hnear t ht)
  have hcount := hok.ids.length_eq
  rw [List.length_map, List.length_range] at hcount
  rw [hones, List.map_const', List.sum_replicate_nat, Nat.mul_one, hcount] at hle
  exact hle

/-- A near timer that arms a far one, which is looked at three times in the overflow list and once in
its bucket: the bound is attained. -/
theorem looks_bounded_nine :
    runLooks (fun k _ => if k = 1 then [.schedule 9 2] else []) (.new 4 1 : World ℕ)
        [.schedule 2 1, .advance 20] ≤ 5 ∧
      runLooks (fun k _ => if k = 1 then [.schedule 9 2] else []) (.new 4 1 : World ℕ)
        [.schedule 2 1, .advance 20] = 5 := by
  have h := (looks_bounded 4 1 (by decide) (fun k _ => if k = 1 then [.schedule 9 2] else [])
    [.schedule 2 1, .advance 20]).1
  exact ⟨le_trans h (by decide), by decide⟩

end World

end DurableExecution
