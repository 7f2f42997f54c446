import Mathlib.Algebra.Order.Ring.Int
import DurableExecution.Library.System
import DurableExecution.Wheel.Proofs.NumbersProofs

/-!
# Proofs: panics of the Rust wheel

The only operations that panic, apart from a negative delay, are a `schedule` whose deadline is not
an `i64`, and the first tick of a wheel without slots.
-/

namespace DurableExecution

namespace PortWheel

variable {κ : Type} {w : World κ} {o : Op ℤ κ} {ops : List (Op ℤ κ)}

theorem exact_rust : Arithmetic.Exact .rust (· < 2 ^ 63) where
  down := Nat.lt_of_le_of_lt
  fits_iff := by
    intro n
    simp only [Arithmetic.rust, decide_eq_true_eq]
    omega
  fits_sub := by
    intro m n hm hn
    simp only [Arithmetic.rust, decide_eq_true_eq]
    omega
  index := by
    intro n slots hn hpos hslots
    have hne : slots ≠ 0 := Nat.ne_of_gt hpos
    have hlt : n % slots < slots := Nat.mod_lt n hpos
    have hmod : (((n : ℤ).tmod slots) % 2 ^ 64).toNat = n % slots := by
      rw [Int.tmod_eq_emod_of_nonneg (Int.natCast_nonneg n), ← Int.natCast_emod]
      omega
    simp only [Arithmetic.rust, hne, if_false, hmod]
  countDown := by
    intro size hsize
    simp only [Arithmetic.rust, if_neg (ne_of_gt hsize)]

/-- The operation on the world. -/
def Op.toWorld : Op ℤ κ → World.Op κ
  | .schedule delay callback => .schedule delay callback
  | .setCancelled id cancelled => .setCancelled id cancelled
  | .advance target => .advance target

theorem rustNext_schedule (v : PortWheel ℤ κ) (delay : ℤ) (callback : κ) :
    rustNext v (.schedule delay callback) =
      ((v.schedule .rust delay callback).map Prod.snd).toOption := by
  rw [rustNext, op]
  cases v.schedule .rust delay callback <;> rfl

theorem rustNext_advance (v : PortWheel ℤ κ) (target : ℤ) :
    rustNext v (.advance target) = ((v.advance .rust target).map Prod.snd).toOption := by
  rw [rustNext, op]
  cases v.advance .rust target <;> rfl

/-- A deadline that is not an `i64`. -/
theorem schedule_overflows {v : PortWheel ℤ κ} {delay : ℤ} (hpos : 0 ≤ delay)
    (hd : ¬ v.now + delay < 2 ^ 63) (callback : κ) : v.schedule .rust delay callback = .error v := by
  have hover : Arithmetic.rust.fits (v.now + delay) = false := by
    simp only [Arithmetic.rust, decide_eq_false_iff_not, not_and]
    omega
  unfold schedule
  rw [if_neg (not_lt.mpr hpos)]
  simp only [Int.cast_id, hover, Bool.false_eq_true, if_false]

/-- **An operation of a wheel that has slots** panics exactly when the deadline is not an `i64`. -/
theorem rustNext_image (hw : Fit (· < 2 ^ 63) w) (ho : o.IsI64) :
    (o.Fits w.wheel.now → rustNext (image ℤ w) o =
        some (image ℤ (World.op World.idle w o.toWorld)) ∧
      Fit (· < 2 ^ 63) (World.op World.idle w o.toWorld) ∧
      ((World.op World.idle w o.toWorld).wheel.now : ℤ) = o.clock w.wheel.now) ∧
    (¬ o.Fits w.wheel.now → rustNext (image ℤ w) o = none) := by
  cases o with
  | schedule delay callback =>
    obtain ⟨n, rfl⟩ := Int.eq_ofNat_of_zero_le ho.1
    have hop : World.op World.idle w (Op.toWorld (.schedule (n : ℤ) callback)) =
        w.register n callback := World.op_schedule_of_nonneg World.idle w callback (by omega)
    constructor
    · intro hfits
      have hd : w.wheel.now + n < 2 ^ 63 := by
        have : (w.wheel.now : ℤ) + n < 2 ^ 63 := hfits
        omega
      have hschedule := schedule_image exact_rust hw.ok.pos hw.slots hw.now hd callback
      rw [hop]
      refine ⟨?_, hw.register hd callback, ?_⟩
      · rw [rustNext_schedule, hschedule]
        rfl
      · rw [World.now_register]
        rfl
    · intro hfits
      have hover : ¬ (image ℤ w).now + (n : ℤ) < 2 ^ 63 := hfits
      rw [rustNext_schedule, schedule_overflows ho.1 hover]
      rfl
  | setCancelled id cancelled =>
    refine ⟨fun _ => ⟨rfl, ⟨World.Inv.setCancelled hw.ok id cancelled, hw.slots, hw.now, hw.held⟩, rfl⟩,
      fun hfits => absurd trivial hfits⟩
  | advance target =>
    refine ⟨fun _ => ?_, fun hfits => absurd trivial hfits⟩
    have htarget : ∀ n : ℕ, (n : ℤ) ≤ target → n < 2 ^ 63 := by
      intro n hn
      have := ho.2
      omega
    obtain ⟨hadvance, hfit⟩ := advance_image exact_rust htarget hw
    refine ⟨?_, hfit, (hw.ok.advance World.idle target).2.1⟩
    rw [rustNext_advance, hadvance]
    rfl

theorem runs_image_iff (hw : Fit (· < 2 ^ 63) w) (hops : ∀ o ∈ ops, o.IsI64) :
    (∃ v, System.runs rustNext (image ℤ w) ops = some v) ↔ AllFit w.wheel.now ops := by
  induction ops generalizing w with
  | nil => exact ⟨fun _ => trivial, fun _ => ⟨_, rfl⟩⟩
  | cons o ops ih =>
    obtain ⟨ho, hrest⟩ := List.forall_mem_cons.mp hops
    obtain ⟨hfit, hpanic⟩ := rustNext_image hw ho
    by_cases hfits : o.Fits w.wheel.now
    · obtain ⟨hnext, hw', hnow⟩ := hfit hfits
      have hih := ih hw' hrest
      rw [hnow] at hih
      simp only [System.runs_cons_iff, hnext, Option.some.injEq, exists_eq_left', AllFit]
      exact hih.trans ⟨fun h => ⟨hfits, h⟩, fun h => h.2⟩
    · constructor
      · rintro ⟨v, hv⟩
        obtain ⟨s', hs', -⟩ := System.runs_cons_iff.mp hv
        rw [hpanic hfits] at hs'
        cases hs'
      · intro hall
        exact absurd hall.1 hfits

/-! ## A wheel without slots -/

section Slotless

variable {v : PortWheel ℤ κ}

/-- No timer is near, so every timer goes to the overflow list. -/
theorem schedule_slotless (hslots : v.slots = 0) (hnow : v.now = 0) {delay : ℤ} (hpos : 0 ≤ delay)
    (hlt : delay < 2 ^ 63) (callback : κ) :
    ∃ t v', v.schedule .rust delay callback = .ok (t, v') ∧ v'.slots = 0 ∧ v'.now = 0 := by
  have hfits : Arithmetic.rust.fits delay = true := by
    simp only [Arithmetic.rust, decide_eq_true_eq]
    omega
  have hdeadline : v.now + delay = delay := by rw [hnow, zero_add]
  have hnear : v.near .rust ⟨v.created, delay, callback⟩ = some false := by
    unfold near
    simp only [hnow, hslots, Int.cast_id, sub_zero, hfits, if_true]
    simp [hpos]
  have hplace : v.place .rust ⟨v.created, delay, callback⟩ =
      .ok { v with overflow := v.overflow ++ [⟨v.created, delay, callback⟩] } := by
    unfold place
    rw [hnear]
  unfold schedule
  rw [if_neg (not_lt.mpr hpos)]
  simp only [Int.cast_id, hdeadline, hfits, if_true, hplace]
  exact ⟨_, _, rfl, hslots, hnow⟩

/-- The first tick looks for its bucket in vain. -/
theorem tick_slotless (hslots : v.slots = 0) : tick .rust v = .error v := by
  unfold tick slotOf
  rw [hslots]
  rfl

theorem advance_slotless (hslots : v.slots = 0) (hnow : v.now = 0) (target : ℤ) :
    (target ≤ 0 → v.advance .rust target = .ok (0, v)) ∧
      (0 < target → v.advance .rust target = .error { v with now := v.now + 1 }) := by
  unfold advance
  constructor
  · intro hle
    have hzero : (target - v.now).toNat = 0 := by omega
    rw [hzero]
    rfl
  · intro hlt
    obtain ⟨n, hn⟩ : ∃ n, (target - v.now).toNat = n + 1 := ⟨(target - v.now).toNat - 1, by omega⟩
    have hfits : Arithmetic.rust.fits ((v.now + 1 : ℤ) : ℤ) = true := by
      rw [hnow]
      decide
    have hstart : v.now < target := by omega
    have htick : tick .rust { v with now := v.now + 1 } = .error { v with now := v.now + 1 } :=
      tick_slotless hslots
    rw [hn, advanceLoop, if_pos hstart, Int.cast_id, if_pos hfits, htick]

/-- **An operation of a wheel without slots** panics exactly when it advances the clock. -/
theorem rustNext_slotless (hslots : v.slots = 0) (hnow : v.now = 0) (ho : o.IsI64) :
    ((∀ target, o = .advance target → target ≤ 0) →
      ∃ v', rustNext v o = some v' ∧ v'.slots = 0 ∧ v'.now = 0) ∧
    ((∃ target, o = .advance target ∧ 0 < target) → rustNext v o = none) := by
  cases o with
  | schedule delay callback =>
    refine ⟨fun _ => ?_, fun ⟨target, ht, _⟩ => by cases ht⟩
    obtain ⟨t, v', hv', hslots', hnow'⟩ := schedule_slotless hslots hnow ho.1 ho.2 callback
    refine ⟨v', ?_, hslots', hnow'⟩
    rw [rustNext_schedule, hv']
    rfl
  | setCancelled id cancelled =>
    exact ⟨fun _ => ⟨_, rfl, hslots, hnow⟩, fun ⟨target, ht, _⟩ => by cases ht⟩
  | advance target =>
    obtain ⟨hidle, hthrows⟩ := advance_slotless hslots hnow target
    constructor
    · intro hle
      refine ⟨v, ?_, hslots, hnow⟩
      rw [rustNext_advance, hidle (hle target rfl)]
      rfl
    · rintro ⟨target', ht, hlt⟩
      obtain rfl := Op.advance.inj ht
      rw [rustNext_advance, hthrows hlt]
      rfl

theorem runs_slotless_iff (hslots : v.slots = 0) (hnow : v.now = 0)
    (hops : ∀ o ∈ ops, o.IsI64) :
    (∃ u, System.runs rustNext v ops = some u) ↔ ∀ target, Op.advance target ∈ ops → target ≤ 0 := by
  induction ops generalizing v with
  | nil =>
    refine ⟨fun _ target ht => ?_, fun _ => ⟨_, rfl⟩⟩
    cases ht
  | cons o ops ih =>
    obtain ⟨ho, hrest⟩ := List.forall_mem_cons.mp hops
    obtain ⟨hidle, hpanic⟩ := rustNext_slotless hslots hnow ho
    by_cases hadv : ∃ target, o = .advance target ∧ 0 < target
    · constructor
      · rintro ⟨u, hu⟩
        obtain ⟨v', hv', -⟩ := System.runs_cons_iff.mp hu
        rw [hpanic hadv] at hv'
        cases hv'
      · intro hall
        obtain ⟨target, rfl, hlt⟩ := hadv
        exact absurd (hall target List.mem_cons_self) (by omega)
    · have hle : ∀ target, o = .advance target → target ≤ 0 := by
        intro target ht
        exact Int.not_lt.mp fun hlt => hadv ⟨target, ht, hlt⟩
      obtain ⟨v', hv', hslots', hnow'⟩ := hidle hle
      simp only [System.runs_cons_iff, hv', Option.some.injEq, exists_eq_left', List.mem_cons]
      rw [ih hslots' hnow' hrest]
      exact ⟨fun h target ht => ht.elim (fun heq => hle target heq.symm) (h target),
        fun h target ht => h target (Or.inr ht)⟩

end Slotless

/-- While the clock shows 0, every deadline is an `i64`. -/
theorem allFit_of_le (hops : ∀ o ∈ ops, o.IsI64) (h : ∀ target, Op.advance target ∈ ops → target ≤ 0) :
    AllFit 0 ops := by
  induction ops with
  | nil => trivial
  | cons o ops ih =>
    obtain ⟨ho, hrest⟩ := List.forall_mem_cons.mp hops
    have hih := ih hrest fun target ht => h target (List.mem_cons_of_mem o ht)
    cases o with
    | schedule delay callback =>
      refine ⟨?_, hih⟩
      show 0 + delay < 2 ^ 63
      rw [zero_add]
      exact ho.2
    | setCancelled id cancelled => exact ⟨trivial, hih⟩
    | advance target =>
      refine ⟨trivial, ?_⟩
      show AllFit (max 0 target) ops
      rw [max_eq_left (h target List.mem_cons_self)]
      exact hih

/-! ## Any wheel -/

/-- **A run of the Rust wheel does not panic exactly when** every deadline is an `i64`, and the wheel
has slots or its clock is never advanced. -/
theorem rust_runs_iff (slotsPerWheel levels : ℕ) (hslots : slotsPerWheel * max levels 1 < 2 ^ 63)
    (ops : List (Op ℤ κ)) (hops : ∀ o ∈ ops, o.IsI64) :
    (∃ w, System.runs rustNext (withConfig slotsPerWheel levels) ops = some w) ↔
      (0 < slotsPerWheel ∨ ∀ target, Op.advance target ∈ ops → target ≤ 0) ∧ AllFit 0 ops := by
  by_cases hpos : 0 < slotsPerWheel
  · have hfit : Fit (· < 2 ^ 63) (World.new slotsPerWheel levels : World κ) := by
      have hnow : 0 < 2 ^ 63 := by decide
      refine ⟨World.ok_new slotsPerWheel levels hpos, hslots, hnow, ?_⟩
      intro t ht
      simp [World.new, HierarchicalTimingWheel.held, HierarchicalTimingWheel.withConfig] at ht
    rw [← image_new ℤ slotsPerWheel levels, runs_image_iff hfit hops]
    exact ⟨fun h => ⟨Or.inl hpos, h⟩, fun h => h.2⟩
  · have hzero : (withConfig slotsPerWheel levels : PortWheel ℤ κ).slots = 0 := by
      show slotsPerWheel * max levels 1 = 0
      rw [Nat.eq_zero_of_not_pos hpos, Nat.zero_mul]
    rw [runs_slotless_iff hzero rfl hops]
    constructor
    · exact fun h => ⟨Or.inr h, allFit_of_le hops h⟩
    · rintro ⟨h | h, -⟩
      · exact absurd h hpos
      · exact h

theorem rust_runs_iff_four :
    ∃ w, System.runs rustNext (withConfig 4 1)
      ([.schedule 6 (), .advance 7, .schedule (2 ^ 63 - 8) ()] : List (Op ℤ Unit)) = some w :=
  (rust_runs_iff 4 1 (by decide) _ (by simp [Op.IsI64])).mpr
    ⟨Or.inl (by decide), by simp [AllFit, Op.Fits, Op.clock]⟩

/-- A wheel without slots panics in its first tick, and a wheel with 4 slots panics when it adds the
greatest delay to the time 1. -/
theorem rust_panics :
    rustNext (withConfig 0 1) (.advance 1 : Op ℤ Unit) = none ∧
      ∃ w, System.runs rustNext (withConfig 4 1) ([.advance 1] : List (Op ℤ Unit)) = some w ∧
        rustNext w (.schedule (2 ^ 63 - 1) ()) = none :=
  ⟨rfl, _, rfl, by decide⟩

end PortWheel

end DurableExecution
