import Mathlib.Algebra.Order.Field.Rat
import Mathlib.Data.Rat.Floor
import DurableExecution.Wheel.Proofs.NumbersProofs

/-!
# Proofs: fractional delays on the TypeScript wheel

A fraction names no bucket. A fractional delay within one revolution makes `schedule` throw, and
nothing has happened. A longer one is accepted into the overflow list, and the tick that should
re-home the timer throws, each time.
-/

namespace DurableExecution

theorem Arithmetic.remainder_natCast (n slots : ℕ) (h : 0 < slots) :
    Arithmetic.remainder (n : ℚ) slots = ((n % slots : ℕ) : ℚ) := by
  have hfloor : (((n : ℚ) / slots).num.tdiv ((n : ℚ) / slots).den : ℤ) = (n / slots : ℕ) := by
    have hnonneg : (0 : ℚ) ≤ (n : ℚ) / slots := by positivity
    rw [Int.tdiv_eq_ediv_of_nonneg (Rat.num_nonneg.mpr hnonneg), ← Rat.floor_def']
    exact Rat.floor_natCast_div_natCast n slots
  have hsplit : ((n % slots : ℕ) : ℚ) + slots * (n / slots : ℕ) = n := by
    exact_mod_cast Nat.mod_add_div n slots
  unfold Arithmetic.remainder
  rw [hfloor, Int.cast_natCast]
  linarith

/-- A fraction has a fractional remainder. -/
theorem Arithmetic.index_of_den {n : ℚ} (h : n.den ≠ 1) (slots : ℕ) :
    Arithmetic.typeScript.index n slots = none := by
  unfold Arithmetic.typeScript
  simp only
  rw [if_neg]
  rintro ⟨-, hden, -⟩
  apply h
  have hint : n = (((Arithmetic.remainder n slots).num +
      slots * (n / slots).num.tdiv (n / slots).den : ℤ) : ℚ) := by
    have hrem : (((Arithmetic.remainder n slots).num : ℤ) : ℚ) = Arithmetic.remainder n slots :=
      Rat.coe_int_num_of_den_eq_one hden
    push_cast
    rw [hrem]
    unfold Arithmetic.remainder
    ring
  rw [hint]
  exact Rat.den_intCast _

namespace PortWheel

variable {κ : Type} {w : World κ} {o : Op ℚ κ} {ops : List (Op ℚ κ)}

theorem exact_typeScript : Arithmetic.Exact .typeScript fun _ => True where
  down := fun _ _ => trivial
  fits_iff := fun _ => ⟨fun _ => trivial, fun _ => rfl⟩
  fits_sub := fun _ _ => rfl
  index := by
    intro n slots _ hpos _
    have hrem := Arithmetic.remainder_natCast n slots hpos
    unfold Arithmetic.typeScript
    simp only [hrem]
    rw [if_pos ⟨Nat.ne_of_gt hpos, Rat.den_natCast _, Nat.cast_nonneg _⟩, Rat.num_natCast,
      Int.toNat_natCast]
  countDown := fun _ => rfl

/-! ## Whole delays -/

theorem sound_image (hok : w.Ok) (hcalls : w.calls = World.callsIn w.turns) : Sound (image ℚ w) where
  once := by
    have hids : (image ℚ w).calls.map (·.2.id) = w.calls.map (·.timer.id) := by
      simp [image, timerImage]
    have hsub : (w.calls.map (·.timer.id)).Sublist (w.turns.map (·.timer.id)) := by
      rw [hcalls, World.callsIn, List.map_map]
      exact List.filter_sublist.map _
    have hturns : (w.turns.map (·.timer.id)).Sublist ((w.timers []).map (·.id)) := by
      rw [World.timers, List.nil_append, List.map_append, List.map_map]
      exact List.sublist_append_right ..
    rw [hids]
    exact (hsub.trans hturns).nodup hok.nodup
  apart := by
    have hids : (image ℚ w).held.map (·.id) = w.wheel.held.map (·.id) := by
      rw [held_image, List.map_map]
      rfl
    rw [hids]
    exact ((List.sublist_append_left w.wheel.held _).map _).nodup hok.nodup
  size := by
    rw [held_image, List.length_map]
    exact hok.size

/-- The delay is not a fraction that reaches the overflow list of a wheel with `slots` slots. -/
def Op.Whole (slots : ℕ) : Op ℚ κ → Prop
  | .schedule delay _ => (slots : ℚ) ≤ delay → delay.den = 1
  | _ => True

theorem tsNext_schedule_error {v : PortWheel ℚ κ} {delay : ℚ} {callback : κ}
    (h : v.schedule .typeScript delay callback = .error v) : tsNext v (.schedule delay callback) = v := by
  unfold tsNext
  rw [op, h]

/-- A fraction that is due within one revolution is rejected, like a negative delay. -/
theorem schedule_fraction {v : PortWheel ℚ κ} {delay : ℚ} (hden : delay.den ≠ 1)
    (hnear : delay < v.slots) (callback : κ) :
    v.schedule .typeScript delay callback = .error v := by
  unfold schedule
  split
  · rfl
  · have hdeadline : ((v.now : ℚ) + delay).den ≠ 1 := by
      rwa [Rat.intCast_add_den]
    have hplace : v.place .typeScript ⟨v.created, (v.now : ℚ) + delay, callback⟩ = .error v := by
      unfold place near slotOf
      rw [Arithmetic.index_of_den hdeadline]
      simp [Arithmetic.typeScript, hnear]
    simp only [Arithmetic.typeScript, if_true] at hplace ⊢
    rw [hplace]

/-- **An operation without a fraction in the overflow list** does what it does to the world. -/
theorem tsNext_image (hw : Fit (fun _ => True) w) (hcalls : w.calls = World.callsIn w.turns)
    (ho : o.Whole w.wheel.slots) :
    ∃ w' : World κ, tsNext (image ℚ w) o = image ℚ w' ∧ Fit (fun _ => True) w' ∧
      w'.calls = World.callsIn w'.turns ∧ w'.wheel.slots = w.wheel.slots ∧
      ∀ target, o = .advance target → ∃ r, (image ℚ w).advance .typeScript target = .ok r := by
  cases o with
  | schedule delay callback =>
    by_cases hneg : delay < 0
    · refine ⟨w, tsNext_schedule_error ?_, hw, hcalls, rfl, fun target ht => by cases ht⟩
      unfold schedule
      rw [if_pos hneg]
    · by_cases hden : delay.den = 1
      · obtain ⟨n, rfl⟩ : ∃ n : ℕ, delay = n := by
          have hnum : 0 ≤ delay.num := Rat.num_nonneg.mpr (not_lt.mp hneg)
          refine ⟨delay.num.toNat, ?_⟩
          rw [← Int.cast_natCast, Int.toNat_of_nonneg hnum]
          exact (Rat.coe_int_num_of_den_eq_one hden).symm
        have hschedule : (image ℚ w).schedule .typeScript (n : ℚ) callback =
            .ok (timerImage ℚ (w.nextTimer n callback), image ℚ (w.register n callback)) :=
          schedule_image exact_typeScript hw.ok.pos hw.slots hw.now trivial callback
        refine ⟨w.register n callback, ?_, hw.register trivial callback, hcalls,
          World.slots_register w n callback, fun target ht => by cases ht⟩
        unfold tsNext
        rw [op, hschedule]
      · have hnear : delay < (image ℚ w).slots := not_le.mp fun hle => hden (ho hle)
        exact ⟨w, tsNext_schedule_error (schedule_fraction hden hnear callback), hw, hcalls, rfl,
          fun target ht => by cases ht⟩
  | setCancelled id cancelled =>
    exact ⟨w.setCancelled id cancelled, rfl,
      ⟨World.Inv.setCancelled hw.ok id cancelled, hw.slots, hw.now, hw.held⟩, hcalls, rfl,
      fun target ht => by cases ht⟩
  | advance target =>
    have htarget : ∀ n : ℕ, (n : ℤ) ≤ target → True := fun _ _ => trivial
    obtain ⟨hadvance, hfit⟩ := advance_image exact_typeScript htarget hw
    obtain ⟨-, -, new, hev, -⟩ := hw.ok.advance World.idle target
    refine ⟨(w.advance World.idle target).2, ?_, hfit, ?_, hev.slots, ?_⟩
    · unfold tsNext
      rw [op, hadvance]
    · rw [hev.calls, hev.turns, hcalls, World.callsIn_append]
    · intro target' ht
      obtain rfl := Op.advance.inj ht
      exact ⟨_, hadvance⟩

theorem unbroken_of_whole (hw : Fit (fun _ => True) w) (hcalls : w.calls = World.callsIn w.turns)
    (hops : ∀ o ∈ ops, o.Whole w.wheel.slots) : Unbroken (image ℚ w) ops := by
  induction ops generalizing w with
  | nil => exact sound_image hw.ok hcalls
  | cons o ops ih =>
    obtain ⟨ho, hrest⟩ := List.forall_mem_cons.mp hops
    obtain ⟨w', hnext, hw', hcalls', hslots, hadvance⟩ := tsNext_image hw hcalls ho
    refine ⟨sound_image hw.ok hcalls, hadvance, ?_⟩
    rw [hnext]
    exact ih hw' hcalls' (hslots ▸ hrest)

/-! ## A fraction in the overflow list -/

variable {u v : PortWheel ℚ κ} {t : PortTimer ℚ κ}

/-- The wheel has slots and shows a time, and the timer `t` with a fractional deadline is in its
overflow list. -/
structure Stuck (v : PortWheel ℚ κ) (t : PortTimer ℚ κ) : Prop where
  pos : 0 < v.slots
  buckets : v.buckets.length = v.slots
  now : 0 ≤ v.now
  fraction : t.deadline.den ≠ 1
  mem : t ∈ v.overflow

/-- A wheel that differs in other places. -/
theorem Stuck.congr (h : Stuck v t) (hslots : u.slots = v.slots)
    (hbuckets : u.buckets.length = v.buckets.length) (hnow : u.now = v.now)
    (hmem : t ∈ u.overflow) : Stuck u t :=
  ⟨hslots ▸ h.pos, by rw [hbuckets, hslots, h.buckets], hnow ▸ h.now, h.fraction, hmem⟩

theorem turns_frame {due : List (PortTimer ℚ κ)} {fired fired' : ℕ}
    (h : turns .typeScript due fired v = .ok (fired', u)) :
    u.slots = v.slots ∧ u.buckets = v.buckets ∧ u.now = v.now ∧ u.overflow = v.overflow := by
  induction due generalizing v fired with
  | nil =>
    obtain ⟨-, rfl⟩ := Prod.mk.inj (Except.ok.inj h)
    exact ⟨rfl, rfl, rfl, rfl⟩
  | cons t due ih =>
    have hcount : ∀ size : ℤ, Arithmetic.typeScript.countDown size = some (size - 1) := fun _ => rfl
    rw [turns] at h
    cases hc : v.cancelled t.id with
    | true =>
      simp only [hc, if_true, hcount] at h
      have hrest := ih h
      exact hrest
    | false =>
      simp only [hc, Bool.false_eq_true, if_false, hcount] at h
      have hrest := ih h
      exact hrest

/-- A re-homing loop that does not throw has found every timer with a fractional deadline out of
range. -/
theorem rehome_frame {ts still : List (PortTimer ℚ κ)} (h : rehome .typeScript ts still v = .ok u) :
    u.slots = v.slots ∧ u.buckets.length = v.buckets.length ∧ u.now = v.now ∧
      still ⊆ u.overflow ∧
      ∀ t ∈ ts, t.deadline.den ≠ 1 → (v.slots : ℚ) ≤ t.deadline - v.now ∧ t ∈ u.overflow := by
  induction ts generalizing still v with
  | nil =>
    obtain rfl := Except.ok.inj h
    exact ⟨rfl, rfl, rfl, List.Subset.refl _, fun t ht => by cases ht⟩
  | cons t ts ih =>
    by_cases hnear : t.deadline - v.now < v.slots
    · have hn : v.near .typeScript t = some true := by simp [near, Arithmetic.typeScript, hnear]
      rw [rehome, hn] at h
      cases hslot : v.slotOf .typeScript t.deadline with
      | none =>
        rw [hslot] at h
        cases h
      | some i =>
        rw [hslot] at h
        obtain ⟨hslots, hbuckets, hnow, hstill, hts⟩ := ih h
        refine ⟨hslots, hbuckets.trans (Buckets.length_push _ _ _), hnow, hstill, ?_⟩
        intro t' ht' hden
        rcases List.mem_cons.mp ht' with rfl | ht'
        · unfold slotOf at hslot
          rw [Arithmetic.index_of_den hden] at hslot
          cases hslot
        · exact hts t' ht' hden
    · have hn : v.near .typeScript t = some false := by simp [near, Arithmetic.typeScript, hnear]
      rw [rehome, hn] at h
      obtain ⟨hslots, hbuckets, hnow, hstill, hts⟩ := ih h
      refine ⟨hslots, hbuckets, hnow, fun t' ht' => hstill (List.mem_append_left _ ht'), ?_⟩
      intro t' ht' hden
      rcases List.mem_cons.mp ht' with rfl | ht'
      · exact ⟨not_lt.mp hnear, hstill (List.mem_append_right _ List.mem_cons_self)⟩
      · exact hts t' ht' hden

/-- An end of a tick that does not throw, at the end of a revolution, has found the timer out of
range. -/
theorem Stuck.endTick (h : Stuck v t) {i : ℕ} (hu : v.endTick .typeScript i = .ok u) :
    Stuck u t ∧ u.now = v.now ∧ u.slots = v.slots ∧
      (i = v.slots - 1 → (v.slots : ℚ) ≤ t.deadline - v.now) := by
  have hlen : v.overflow.length > 0 := List.length_pos_of_mem h.mem
  unfold PortWheel.endTick at hu
  by_cases hlast : i = v.slots - 1
  · rw [if_pos ⟨hlast, hlen⟩] at hu
    obtain ⟨hslots, hbuckets, hnow, -, hts⟩ := rehome_frame hu
    obtain ⟨hfar, hmem⟩ := hts t h.mem h.fraction
    exact ⟨h.congr hslots hbuckets hnow hmem, hnow, hslots, fun _ => hfar⟩
  · rw [if_neg fun hc => hlast hc.1] at hu
    obtain rfl := Except.ok.inj hu
    exact ⟨h, rfl, rfl, fun hi => absurd hi hlast⟩

theorem Stuck.slotOf (h : Stuck v t) {n : ℕ} (hn : v.now = n) :
    v.slotOf .typeScript (v.now : ℚ) = some (n % v.slots) := by
  have hlt : n % v.slots < v.buckets.length := by
    rw [h.buckets]
    exact Nat.mod_lt n h.pos
  unfold PortWheel.slotOf
  rw [hn, Int.cast_natCast, exact_typeScript.index trivial h.pos trivial]
  simp [hlt]

/-- **A tick that does not throw** leaves the timer in the overflow list; at the end of a revolution
it has found it out of range. -/
theorem Stuck.tick (h : Stuck v t) {fired : ℕ} (hu : tick .typeScript v = .ok (fired, u)) :
    Stuck u t ∧ u.now = v.now ∧ u.slots = v.slots ∧
      (v.now % v.slots = v.slots - 1 → (v.slots : ℚ) ≤ t.deadline - v.now) := by
  obtain ⟨n, hn⟩ := Int.eq_ofNat_of_zero_le h.now
  have hpos := h.pos
  unfold PortWheel.tick at hu
  rw [h.slotOf hn] at hu
  simp only [] at hu
  split at hu
  · cases hu
  · next fired' w hturns =>
    obtain ⟨hslots, hbuckets, hnow, hoverflow⟩ := turns_frame hturns
    have hlen : w.buckets.length = v.buckets.length := by rw [hbuckets, Buckets.length_replace]
    have hw : Stuck w t := h.congr hslots hlen hnow (hoverflow ▸ h.mem)
    split at hu
    · cases hu
    · next w' hend =>
      obtain ⟨-, rfl⟩ := Prod.mk.inj (Except.ok.inj hu)
      obtain ⟨hw', hnow', hslots', hfar⟩ := hw.endTick hend
      refine ⟨hw', hnow'.trans hnow, hslots'.trans hslots, fun hmod => ?_⟩
      rw [hslots, hnow] at hfar
      apply hfar
      show n % v.slots = v.slots - 1
      have hmod' : ((n % v.slots : ℕ) : ℤ) = v.slots - 1 := by
        rw [Int.natCast_emod, ← hmod, hn]
      omega

theorem Stuck.advanceLoop (h : Stuck v t) {target : ℤ} {n fired : ℕ} {r : ℕ × PortWheel ℚ κ}
    (hr : advanceLoop .typeScript target n fired v = .ok r) :
    Stuck r.2 t ∧ ∀ m : ℤ, v.now < m → m ≤ target → m ≤ v.now + n → m % v.slots = v.slots - 1 →
      (v.slots : ℚ) ≤ t.deadline - m := by
  induction n generalizing v fired with
  | zero =>
    obtain rfl := Except.ok.inj hr
    refine ⟨h, fun m hlt _ hle => ?_⟩
    omega
  | succ n ih =>
    rw [PortWheel.advanceLoop] at hr
    by_cases hlt : v.now < target
    · have hfits : Arithmetic.typeScript.fits (((v.now + 1 : ℤ)) : ℚ) = true := rfl
      rw [if_pos hlt, if_pos hfits] at hr
      have hclock : Stuck { v with now := v.now + 1 } t :=
        ⟨h.pos, h.buckets, Int.add_nonneg h.now (by decide), h.fraction, h.mem⟩
      split at hr
      · cases hr
      · next more w htick =>
        obtain ⟨hw, hnow, hslots, hend⟩ : Stuck w t ∧ w.now = v.now + 1 ∧ w.slots = v.slots ∧
            ((v.now + 1) % v.slots = v.slots - 1 →
              (v.slots : ℚ) ≤ t.deadline - ((v.now + 1 : ℤ) : ℚ)) := hclock.tick htick
        obtain ⟨hstuck, hrest⟩ := ih hw hr
        rw [hnow, hslots] at hrest
        refine ⟨hstuck, fun m hm hmt hmn hmod => ?_⟩
        by_cases heq : m = v.now + 1
        · exact heq ▸ hend (heq ▸ hmod)
        · exact hrest m (by omega) hmt (by omega) hmod
    · rw [if_neg hlt] at hr
      obtain rfl := Except.ok.inj hr
      exact ⟨h, fun m hm hmt => by omega⟩

theorem Stuck.advance (h : Stuck v t) {target : ℤ} {r : ℕ × PortWheel ℚ κ}
    (hr : v.advance .typeScript target = .ok r) :
    Stuck r.2 t ∧ ∀ m : ℤ, v.now < m → m ≤ target → m % v.slots = v.slots - 1 →
      (v.slots : ℚ) ≤ t.deadline - m := by
  obtain ⟨hstuck, hall⟩ := h.advanceLoop hr
  exact ⟨hstuck, fun m hm hmt hmod => hall m hm hmt (by omega) hmod⟩

/-- The end of a revolution after the deadline of `t`. -/
def pastEnd (v : PortWheel ℚ κ) (t : PortTimer ℚ κ) : ℤ :=
  v.slots * (v.now.toNat + ⌈t.deadline⌉₊ + 2 : ℕ) - 1

/-- **An `advance` past the deadline throws.** -/
theorem Stuck.throws (h : Stuck v t) : ¬ ∃ r, v.advance .typeScript (pastEnd v t) = .ok r := by
  rintro ⟨r, hr⟩
  have hslots : (1 : ℤ) ≤ v.slots := by exact_mod_cast h.pos
  have hnow := h.now
  have hge : ((v.now.toNat + ⌈t.deadline⌉₊ + 2 : ℕ) : ℤ) ≤
      v.slots * (v.now.toNat + ⌈t.deadline⌉₊ + 2 : ℕ) :=
    le_mul_of_one_le_left (Int.natCast_nonneg _) hslots
  have hmod : pastEnd v t % v.slots = v.slots - 1 := by
    unfold pastEnd
    rw [show (v.slots : ℤ) * (v.now.toNat + ⌈t.deadline⌉₊ + 2 : ℕ) - 1 =
      (v.slots - 1) + v.slots * (v.now.toNat + ⌈t.deadline⌉₊ + 1 : ℕ) by push_cast; ring,
      Int.add_mul_emod_self_left]
    exact Int.emod_eq_of_lt (by omega) (by omega)
  have hlater : v.now < pastEnd v t := by
    unfold pastEnd
    omega
  have hfar := (h.advance hr).2 _ hlater (le_refl _) hmod
  have hceil : t.deadline ≤ (pastEnd v t : ℚ) := by
    have hle : ((⌈t.deadline⌉₊ : ℕ) : ℤ) ≤ pastEnd v t := by
      unfold pastEnd
      omega
    exact (Nat.le_ceil t.deadline).trans (by exact_mod_cast hle)
  have hpos : (0 : ℚ) < v.slots := by exact_mod_cast h.pos
  linarith

/-- `schedule` adds to the overflow list, if it does anything to it. -/
theorem Stuck.schedule (h : Stuck v t) (delay : ℚ) (callback : κ) :
    Stuck (tsNext v (.schedule delay callback)) t := by
  have hplace : ∀ (t' : PortTimer ℚ κ) (w : PortWheel ℚ κ),
      v.place .typeScript t' = .ok w ∨ v.place .typeScript t' = .error w → Stuck w t := by
    intro t' w hw
    unfold PortWheel.place at hw
    split at hw
    · rcases hw with hw | hw <;> cases hw
      exact h
    · split at hw
      · rcases hw with hw | hw <;> cases hw
        exact h.congr rfl (Buckets.length_push _ _ _) rfl h.mem
      · rcases hw with hw | hw <;> cases hw
        exact h
    · rcases hw with hw | hw <;> cases hw
      exact h.congr rfl rfl rfl (List.mem_append_left _ h.mem)
  unfold tsNext
  rw [op]
  unfold PortWheel.schedule
  by_cases hneg : delay < 0
  · rw [if_pos hneg]
    exact h
  · rw [if_neg hneg]
    simp only [Arithmetic.typeScript, if_true]
    cases hw : v.place .typeScript ⟨v.created, (v.now : ℚ) + delay, callback⟩ with
    | ok w =>
      have hstuck := hplace _ w (Or.inl hw)
      simp only [Arithmetic.typeScript] at hw
      rw [hw]
      exact hstuck.congr rfl rfl rfl hstuck.mem
    | error w =>
      have hstuck := hplace _ w (Or.inr hw)
      simp only [Arithmetic.typeScript] at hw
      rw [hw]
      exact hstuck

/-- Whatever is done, the wheel breaks sooner or later. -/
theorem Stuck.broken (h : Stuck v t) (ops : List (Op ℚ κ)) :
    ∃ targets : List ℤ, ¬ Unbroken v (ops ++ targets.map .advance) := by
  induction ops generalizing v with
  | nil =>
    refine ⟨[pastEnd v t], ?_⟩
    rintro ⟨-, hadvance, -⟩
    exact h.throws (hadvance _ rfl)
  | cons o ops ih =>
    -- either the operation is an `advance` that throws, or the timer stays in the overflow list
    by_cases hok : ∀ target, o = .advance target → ∃ r, v.advance .typeScript target = .ok r
    · have hnext : Stuck (tsNext v o) t := by
        cases o with
        | schedule delay callback => exact h.schedule delay callback
        | setCancelled id cancelled => exact h.congr rfl rfl rfl h.mem
        | advance target =>
          obtain ⟨r, hr⟩ := hok target rfl
          unfold tsNext
          rw [op, hr]
          exact (h.advance hr).1
      obtain ⟨targets, hbroken⟩ := ih hnext
      exact ⟨targets, fun hall => hbroken hall.2.2⟩
    · exact ⟨[], fun hall => hok hall.2.1⟩

/-- A fraction that is not due within one revolution is accepted into the overflow list. -/
theorem stuck_of_schedule (hok : w.Ok) {delay : ℚ} (hfar : (w.wheel.slots : ℚ) ≤ delay)
    (hden : delay.den ≠ 1) (callback : κ) :
    (∃ r, (image ℚ w).schedule .typeScript delay callback = .ok r) ∧
      ∃ t, Stuck (tsNext (image ℚ w) (.schedule delay callback)) t := by
  have hneg : ¬ delay < 0 := not_lt.mpr ((Nat.cast_nonneg _).trans hfar)
  set t : PortTimer ℚ κ := ⟨w.created, ((image ℚ w).now : ℚ) + delay, callback⟩ with ht
  have hplace : (image ℚ w).place .typeScript t =
      .ok { image ℚ w with overflow := (image ℚ w).overflow ++ [t] } := by
    have hnear : (image ℚ w).near .typeScript t = some false := by
      unfold near
      simp only [ht, Arithmetic.typeScript, if_true, add_sub_cancel_left]
      exact congrArg some (decide_eq_false (not_lt.mpr hfar))
    unfold place
    rw [hnear]
  have hschedule : (image ℚ w).schedule .typeScript delay callback =
      .ok (t, { image ℚ w with
        overflow := (image ℚ w).overflow ++ [t]
        size := (image ℚ w).size + 1
        cancelled := Function.update (image ℚ w).cancelled t.id false
        created := (image ℚ w).created + 1 }) := by
    unfold schedule
    rw [if_neg hneg]
    have hfits : Arithmetic.typeScript.fits (((image ℚ w).now : ℚ) + delay) = true := rfl
    simp only [hfits, if_true]
    rw [show (⟨(image ℚ w).created, ((image ℚ w).now : ℚ) + delay, callback⟩ : PortTimer ℚ κ) = t
      from rfl, hplace]
    rfl
  refine ⟨⟨_, hschedule⟩, t, ?_⟩
  unfold tsNext
  rw [op, hschedule]
  refine ⟨hok.pos, ?_, Int.natCast_nonneg _, ?_, List.mem_append_right _ List.mem_cons_self⟩
  · show (w.wheel.buckets.map (List.map (timerImage ℚ))).length = w.wheel.slots
    rw [List.length_map, w.wheel.length_buckets]
  · rw [ht]
    simpa only [Rat.intCast_add_den] using hden

/-- A run with such a delay breaks the wheel sooner or later. -/
theorem broken_of_fraction (hw : Fit (fun _ => True) w) (hcalls : w.calls = World.callsIn w.turns)
    (hops : ∃ o ∈ ops, ¬ o.Whole w.wheel.slots) :
    ∃ targets : List ℤ, ¬ Unbroken (image ℚ w) (ops ++ targets.map .advance) := by
  induction ops generalizing w with
  | nil =>
    obtain ⟨o, ho, -⟩ := hops
    cases ho
  | cons o ops ih =>
    by_cases ho : o.Whole w.wheel.slots
    · obtain ⟨w', hnext, hw', hcalls', hslots, -⟩ := tsNext_image hw hcalls ho
      have hrest : ∃ o ∈ ops, ¬ o.Whole w'.wheel.slots := by
        obtain ⟨o', ho', hfrac⟩ := hops
        rcases List.mem_cons.mp ho' with rfl | ho'
        · exact absurd ho hfrac
        · exact ⟨o', ho', hslots.symm ▸ hfrac⟩
      obtain ⟨targets, hbroken⟩ := ih hw' hcalls' hrest
      refine ⟨targets, fun hall => hbroken ?_⟩
      rw [← hnext]
      exact hall.2.2
    · cases o with
      | schedule delay callback =>
        have hfrac : ¬ ((w.wheel.slots : ℚ) ≤ delay → delay.den = 1) := ho
        obtain ⟨hfar, hden⟩ := Classical.not_imp.mp hfrac
        obtain ⟨-, t, hstuck⟩ := stuck_of_schedule hw.ok hfar hden callback
        obtain ⟨targets, hbroken⟩ := hstuck.broken ops
        exact ⟨targets, fun hall => hbroken hall.2.2⟩
      | setCancelled id cancelled => exact absurd trivial ho
      | advance target => exact absurd trivial ho

/-- **The timers that the TypeScript wheel accepts do not break it later exactly when** no fractional
delay of a revolution or more is accepted. -/
theorem ts_unbroken_iff (slotsPerWheel levels : ℕ) (h : 0 < slotsPerWheel) (ops : List (Op ℚ κ)) :
    (∀ targets : List ℤ, Unbroken (withConfig slotsPerWheel levels) (ops ++ targets.map .advance)) ↔
      ∀ delay callback, Op.schedule delay callback ∈ ops →
        ((slotsPerWheel * max levels 1 : ℕ) : ℚ) ≤ delay → delay.den = 1 := by
  have hfit : Fit (fun _ => True) (World.new slotsPerWheel levels : World κ) :=
    ⟨World.ok_new slotsPerWheel levels h, trivial, trivial, fun _ _ => trivial⟩
  have hslots : (World.new slotsPerWheel levels : World κ).wheel.slots = slotsPerWheel * max levels 1 :=
    rfl
  rw [← image_new ℚ slotsPerWheel levels]
  constructor
  · intro hall delay callback hmem
    by_contra hfrac
    obtain ⟨targets, hbroken⟩ := broken_of_fraction hfit rfl ⟨_, hmem, hfrac⟩
    exact hbroken (hall targets)
  · intro hwhole targets
    refine unbroken_of_whole hfit rfl fun o ho => ?_
    rcases List.mem_append.mp ho with ho | ho
    · cases o with
      | schedule delay callback => exact hwhole delay callback ho
      | _ => trivial
    · obtain ⟨target, -, rfl⟩ := List.mem_map.mp ho
      trivial

/-- A fractional delay within one revolution is rejected, so this run does no harm. -/
theorem ts_unbroken_iff_six :
    Unbroken (withConfig 4 1) (([.schedule 6 (), .schedule (5 / 2) (), .advance 7] :
      List (Op ℚ Unit)) ++ [8, 11].map .advance) := by
  refine (ts_unbroken_iff 4 1 (by decide) _).mpr (fun delay callback hmem hfar => ?_) [8, 11]
  simp only [List.mem_cons, Op.schedule.injEq, List.not_mem_nil, reduceCtorEq, or_false] at hmem
  rcases hmem with ⟨rfl, -⟩ | ⟨rfl, -⟩
  · rfl
  · exact absurd hfar (by norm_num)

/-- With the delays 5 and 5.5 on a wheel of 4 slots the tick 3 throws, and later the callback of the
first timer runs twice. -/
theorem fraction_breaks :
    ¬ Unbroken (withConfig 4 1)
        ([.schedule 5 (), .schedule (11 / 2) (), .advance 3] : List (Op ℚ Unit)) ∧
      (([.schedule 5 (), .schedule (11 / 2) (), .advance 3, .advance 7, .advance 9] :
        List (Op ℚ Unit)).foldl tsNext (withConfig 4 1)).calls.map (fun c => (c.1, c.2.id)) =
          [(5, 0), (9, 0)] := by
  constructor
  · rintro ⟨-, -, -, -, -, hadvance, -⟩
    obtain ⟨r, hr⟩ := hadvance 3 rfl
    have hthrows : (advance .typeScript (([.schedule 5 (), .schedule (11 / 2) ()] :
        List (Op ℚ Unit)).foldl tsNext (withConfig 4 1)) 3).toOption.isNone := by decide +kernel
    rw [show advance .typeScript (([.schedule 5 (), .schedule (11 / 2) ()] :
        List (Op ℚ Unit)).foldl tsNext (withConfig 4 1)) 3 = .ok r from hr] at hthrows
    cases hthrows
  · decide +kernel

end PortWheel

end DurableExecution
