import DurableExecution.Wheel.Wrapping
import DurableExecution.Wheel.Proofs.NumbersProofs

/-!
# Proofs: integers of the machine

A deadline that wraps around does no harm before the clock comes to the last revolution of its range:
the wheel only takes the difference of a deadline and the clock, which is exact again, until the timer
is near, and then its deadline is in range. The counts are exact as long as there are fewer timers than
an `int` can count. So up to that time the wheel gives the answers of exact arithmetic.
-/

namespace DurableExecution

/-- The answer of exact arithmetic, in the numbers of a port. A rejected delay is an exception. -/
def Given.ofAnswer {ν κ : Type} [Ring ν] : Answer κ → Given ν κ
  | .scheduled (.ok t) => .scheduled (some (PortWheel.timerImage ν t))
  | .scheduled (.error _) => .scheduled none
  | .flagged => .flagged
  | .advanced fired => .advanced (some fired)

namespace IntWheel

open PortWheel (timerImage)

variable {bits : ℕ} {κ : Type} {w : World κ} {t : Timer κ}

variable (bits) in
/-- A world in the integers of the machine. -/
def image (w : World κ) : IntWheel bits κ where
  slots := (w.wheel.slots : Signed bits)
  buckets := w.wheel.buckets.map (List.map (timerImage (Signed 64)))
  overflow := w.wheel.overflow.map (timerImage (Signed 64))
  now := (w.wheel.now : Signed 64)
  size := (w.wheel.size : Signed bits)
  cancelled := w.cancelled
  created := w.created
  calls := w.calls.map fun c => ((c.now : Signed 64), timerImage (Signed 64) c.timer)

/-- An `int` that can count the slots. -/
structure Spans (bits slots : ℕ) : Prop where
  pos : 0 < bits
  le : bits ≤ 64
  slots_pos : 0 < slots
  slots_lt : slots < 2 ^ (bits - 1)

theorem Spans.lt {slots : ℕ} (h : Spans bits slots) : slots < 2 ^ 63 := by
  have := h.le
  exact Nat.lt_of_lt_of_le h.slots_lt (Nat.pow_le_pow_right (by decide) (by omega))

theorem Spans.toInt {slots : ℕ} (h : Spans bits slots) : ((slots : ℕ) : Signed bits).toInt = slots :=
  Signed.toInt_natCast h.pos h.slots_lt

/-- What a world has to satisfy: the slots can be counted, the clock is at least one revolution before
the end of its range, and no timer is further away than the greatest delay. -/
structure Wraps (bits : ℕ) (w : World κ) : Prop where
  ok : w.Ok
  spans : Spans bits w.wheel.slots
  clock : w.wheel.now + w.wheel.slots ≤ 2 ^ 63
  held : ∀ t ∈ w.wheel.held, t.deadline < w.wheel.now + 2 ^ 63

theorem toInt_time {n : ℕ} (hn : n < 2 ^ 63) : ((n : ℕ) : Signed 64).toInt = n :=
  Signed.toInt_natCast (by decide) hn

theorem slotOf_image (hs : Spans bits w.wheel.slots) {n : ℕ} (hn : n < 2 ^ 63) :
    (image bits w).slotOf (n : Signed 64) = some (n % w.wheel.slots) := by
  have hlt : n % w.wheel.slots < w.wheel.buckets.length := w.wheel.slot_lt hs.slots_pos n
  have hslots : (image bits w).slots.toInt = w.wheel.slots := hs.toInt
  have hmod : ((n : ℕ) : Signed 64).toInt.tmod w.wheel.slots = ((n % w.wheel.slots : ℕ) : ℤ) := by
    rw [toInt_time hn, Int.tmod_eq_emod_of_nonneg (Int.natCast_nonneg n), ← Int.natCast_emod]
  have hne : (image bits w).slots ≠ 0 := by
    intro h
    have hzero : (image bits w).slots.toInt = 0 := by
      rw [h]
      exact Signed.toInt_natCast (n := 0) hs.pos (Nat.two_pow_pos _)
    rw [hslots] at hzero
    have := hs.slots_pos
    omega
  unfold slotOf
  simp only [hslots, hmod, Int.toNat_natCast]
  rw [if_pos]
  exact ⟨hne, Int.natCast_nonneg _, by simpa [image] using hlt⟩

/-- The test `deadline - now < slots` is exact, even when the deadline has wrapped around. -/
theorem near_image (hs : Spans bits w.wheel.slots) (hnow : w.wheel.now < 2 ^ 63)
    (ht : t.deadline < w.wheel.now + 2 ^ 63) :
    (image bits w).near (timerImage (Signed 64) t) =
      decide (t.deadline < w.wheel.now + w.wheel.slots) := by
  have hdiff : Signed.InRange 64 ((t.deadline : ℤ) - (w.wheel.now : ℤ)) := by
    constructor <;> push_cast <;> omega
  have hslots : (image bits w).slots.toInt = w.wheel.slots := hs.toInt
  have hlt : (t.deadline : Signed 64) - (w.wheel.now : Signed 64) < ((w.wheel.slots : ℤ) : Signed 64) ↔
      t.deadline < w.wheel.now + w.wheel.slots := by
    have h := Signed.sub_lt_intCast_iff (by decide) hdiff (Signed.inRange_natCast hs.lt)
    rw [Int.cast_natCast t.deadline, Int.cast_natCast w.wheel.now] at h
    rw [h]
    omega
  unfold near
  rw [hslots]
  exact decide_eq_decide.mpr hlt

/-! ## Placing a timer -/

/-- The image of a world with a timer in its bucket. -/
theorem image_push (w : World κ) (t : Timer κ) :
    { image bits w with
      buckets := Buckets.push (image bits w).buckets (t.deadline % w.wheel.slots)
        (timerImage (Signed 64) t) } =
    image bits { w with wheel := w.wheel.push t } := by
  simp only [image, HierarchicalTimingWheel.push, Buckets.push_map]

theorem place_image (hs : Spans bits w.wheel.slots) (hclock : w.wheel.now + w.wheel.slots ≤ 2 ^ 63)
    (ht : t.deadline < w.wheel.now + 2 ^ 63) :
    (image bits w).place (timerImage (Signed 64) t) =
      .ok (image bits { w with wheel := w.wheel.place t }) := by
  have hpos := hs.slots_pos
  unfold place HierarchicalTimingWheel.place
  rw [near_image hs (by omega) ht]
  by_cases hlt : t.deadline < w.wheel.now + w.wheel.slots
  · have hslot : (image bits w).slotOf (timerImage (Signed 64) t).deadline =
        some (t.deadline % w.wheel.slots) := slotOf_image hs (by omega)
    simp only [hlt, decide_true, if_true, hslot, image_push]
  · simp only [hlt, decide_false, Bool.false_eq_true, if_false]
    simp [image]

/-- The delay may be any that is not negative; the deadline may be out of range. -/
theorem schedule_image (hw : Wraps bits w) {delay : ℕ} (hd : delay < 2 ^ 63) (callback : κ) :
    (image bits w).schedule (delay : Signed 64) callback =
      .ok (timerImage (Signed 64) (w.nextTimer delay callback),
        image bits (w.register delay callback)) := by
  have hdeadline : (image bits w).now + (delay : Signed 64) =
      ((w.wheel.now + delay : ℕ) : Signed 64) := by
    simp [image]
  have hneg : ¬ ((delay : Signed 64) < 0) := by
    rw [Signed.lt_iff, toInt_time hd, show Signed.toInt (0 : Signed 64) = 0 from rfl]
    omega
  have hnear : (w.nextTimer delay callback).deadline < w.wheel.now + 2 ^ 63 :=
    Nat.add_lt_add_left hd w.wheel.now
  have hplace := place_image hw.spans hw.clock hnear
  unfold schedule
  rw [if_neg hneg]
  simp only [hdeadline]
  rw [show (⟨(image bits w).created, ((w.wheel.now + delay : ℕ) : Signed 64), callback⟩ :
    PortTimer (Signed 64) κ) = timerImage (Signed 64) (w.nextTimer delay callback) from rfl, hplace]
  simp [image, World.register, World.nextTimer]

theorem Wraps.register (hw : Wraps bits w) {delay : ℕ} (hd : delay < 2 ^ 63) (callback : κ) :
    Wraps bits (w.register delay callback) := by
  refine ⟨(hw.ok.register delay callback).1, ?_, ?_, ?_⟩
  · rw [World.slots_register]
    exact hw.spans
  · rw [World.now_register, World.slots_register]
    exact hw.clock
  · intro t ht
    rw [World.now_register]
    have hperm := HierarchicalTimingWheel.held_place hw.ok.pos (w.nextTimer delay callback)
    rcases List.mem_cons.mp (hperm.mem_iff.mp ht) with rfl | ht
    · exact Nat.add_lt_add_left hd w.wheel.now
    · exact hw.held t ht

/-! ## Ticks -/

theorem turns_image (due : List (Timer κ)) (w : World κ) (fired : ℕ) :
    turns (due.map (timerImage (Signed 64))) (fired : Signed bits) (image bits w) =
      (((due.foldl (World.turn World.idle) (fired, w)).1 : Signed bits),
        image bits (due.foldl (World.turn World.idle) (fired, w)).2) := by
  induction due generalizing w fired with
  | nil => rfl
  | cons t due ih =>
    have hih := ih (World.turn World.idle (fired, w) t).2 (World.turn World.idle (fired, w) t).1
    rw [List.map_cons, turns, List.foldl_cons, ← hih]
    cases hc : w.cancelled t.id with
    | true => simp [image, timerImage, hc, World.turn]
    | false => simp [image, timerImage, hc, World.turn, World.call, World.idle]

theorem rehome_image (hs : Spans bits w.wheel.slots) (hclock : w.wheel.now + w.wheel.slots ≤ 2 ^ 63)
    (o : List (PortTimer (Signed 64) κ)) {ts : List (Timer κ)}
    (hts : ∀ t ∈ ts, t.deadline < w.wheel.now + 2 ^ 63) :
    rehome (ts.map (timerImage (Signed 64))) (w.wheel.overflow.map (timerImage (Signed 64)))
        { image bits w with overflow := o } =
      .ok (image bits { w with wheel := ts.foldl (fun v t => v.place t) w.wheel }) := by
  have hpos := hs.slots_pos
  induction ts generalizing w with
  | nil => rfl
  | cons t ts ih =>
    obtain ⟨ht, hrest⟩ := List.forall_mem_cons.mp hts
    have hnear : ({ image bits w with overflow := o } : IntWheel bits κ).near
        (timerImage (Signed 64) t) = decide (t.deadline < w.wheel.now + w.wheel.slots) :=
      near_image hs (by omega) ht
    by_cases hlt : t.deadline < w.wheel.now + w.wheel.slots
    · have hslot : ({ image bits w with overflow := o } : IntWheel bits κ).slotOf
          (timerImage (Signed 64) t).deadline = some (t.deadline % w.wheel.slots) :=
        slotOf_image hs (by omega)
      have hplace : w.wheel.place t = w.wheel.push t := by
        rw [HierarchicalTimingWheel.place, if_pos hlt]
      have hpush : { ({ image bits w with overflow := o } : IntWheel bits κ) with
          buckets := Buckets.push (image bits w).buckets (t.deadline % w.wheel.slots)
            (timerImage (Signed 64) t) } =
            { image bits { w with wheel := w.wheel.push t } with overflow := o } := by
        rw [← image_push]
      have hih := ih (w := { w with wheel := w.wheel.push t }) hs hclock hrest hpos
      rw [List.map_cons, rehome, hnear, List.foldl_cons, hplace]
      simp only [hlt, decide_true, if_true, hslot]
      exact hpush ▸ hih
    · have hplace : w.wheel.place t = { w.wheel with overflow := w.wheel.overflow ++ [t] } := by
        rw [HierarchicalTimingWheel.place, if_neg hlt]
      have hih := ih (w := { w with wheel := { w.wheel with overflow := w.wheel.overflow ++ [t] } })
        hs hclock hrest hpos
      rw [List.map_append] at hih
      rw [List.map_cons, rehome, hnear, List.foldl_cons, hplace]
      simp only [hlt, decide_false, Bool.false_eq_true, if_false]
      exact hih

/-- The last slot is recognised in the integers of the machine. -/
theorem last_slot_iff (hs : Spans bits w.wheel.slots) {n : ℕ} (hn : n < w.wheel.slots) :
    (n : Signed bits) = (image bits w).slots - 1 ↔ n = w.wheel.slots - 1 := by
  have hlast : (image bits w).slots - 1 = ((w.wheel.slots - 1 : ℕ) : Signed bits) := by
    rw [Nat.cast_sub hs.slots_pos, Nat.cast_one]
    rfl
  have hinj := Signed.intCast_inj hs.pos (y := n) (z := (w.wheel.slots - 1 : ℕ))
    (Signed.inRange_natCast (Nat.lt_trans hn hs.slots_lt))
    (Signed.inRange_natCast (Nat.lt_of_le_of_lt (Nat.sub_le _ _) hs.slots_lt))
  rw [hlast]
  rw [Int.cast_natCast, Int.cast_natCast] at hinj
  rw [hinj]
  exact Nat.cast_inj

theorem endTick_image (hs : Spans bits w.wheel.slots) (hclock : w.wheel.now + w.wheel.slots ≤ 2 ^ 63)
    (hheld : ∀ t ∈ w.wheel.overflow, t.deadline < w.wheel.now + 2 ^ 63) :
    (image bits w).endTick (w.wheel.now % w.wheel.slots) =
      .ok (image bits { w with wheel := w.wheel.endTick }) := by
  have hlen : (image bits w).overflow.length > 0 ↔ w.wheel.overflow ≠ [] := by
    simp [image, List.length_pos_iff]
  have hlast := last_slot_iff hs (Nat.mod_lt w.wheel.now hs.slots_pos)
  unfold endTick HierarchicalTimingWheel.endTick
  by_cases hend : w.wheel.now % w.wheel.slots = w.wheel.slots - 1 ∧ w.wheel.overflow ≠ []
  · have hrehome := rehome_image (w := { w with wheel := { w.wheel with overflow := [] } }) hs hclock
      (w.wheel.overflow.map (timerImage (Signed 64))) hheld
    rw [if_pos ⟨hlast.mpr hend.1, hlen.mpr hend.2⟩, if_pos hend]
    exact hrehome
  · rw [if_neg fun hc => hend ⟨hlast.mp hc.1, hlen.mp hc.2⟩, if_neg hend]

/-- The timers of the current bucket are near, so their deadlines have not wrapped around. -/
theorem drain_image (hnow : w.wheel.now < 2 ^ 63)
    (hbucket : ∀ t ∈ w.wheel.bucket (w.wheel.now % w.wheel.slots), t.deadline < 2 ^ 63) :
    ((Buckets.get (image bits w).buckets (w.wheel.now % w.wheel.slots)).filter fun t =>
        t.deadline ≤ (image bits w).now) = w.wheel.drain.1.map (timerImage (Signed 64)) ∧
      { image bits w with
        buckets := Buckets.replace (image bits w).buckets (w.wheel.now % w.wheel.slots)
          ((Buckets.get (image bits w).buckets (w.wheel.now % w.wheel.slots)).filter fun t =>
            (image bits w).now < t.deadline) } =
        image bits { w with wheel := w.wheel.drain.2 } := by
  have hget : Buckets.get (image bits w).buckets (w.wheel.now % w.wheel.slots) =
      (w.wheel.bucket (w.wheel.now % w.wheel.slots)).map (timerImage (Signed 64)) :=
    Buckets.get_map _ _ _
  have hlt : ∀ t ∈ w.wheel.bucket (w.wheel.now % w.wheel.slots),
      (image bits w).now < (timerImage (Signed 64) t).deadline ↔ w.wheel.now < t.deadline := by
    intro t ht
    have h := Signed.intCast_lt_iff (w := 64) (by decide) (Signed.inRange_natCast hnow)
      (Signed.inRange_natCast (hbucket t ht))
    rw [Int.cast_natCast, Int.cast_natCast] at h
    exact h.trans Nat.cast_lt
  have hdue : (w.wheel.bucket (w.wheel.now % w.wheel.slots)).filter (fun t => decide
      ((timerImage (Signed 64) t).deadline ≤ (image bits w).now)) =
        (w.wheel.bucket (w.wheel.now % w.wheel.slots)).filter fun t => t.deadline ≤ w.wheel.now := by
    apply List.filter_congr
    intro t ht
    rw [decide_eq_decide, ← not_lt, hlt t ht, not_lt]
  have hkeep : (w.wheel.bucket (w.wheel.now % w.wheel.slots)).filter (fun t => decide
      ((image bits w).now < (timerImage (Signed 64) t).deadline)) =
        (w.wheel.bucket (w.wheel.now % w.wheel.slots)).filter fun t => w.wheel.now < t.deadline := by
    apply List.filter_congr
    intro t ht
    rw [decide_eq_decide, hlt t ht]
  rw [hget, List.filter_map, List.filter_map]
  constructor
  · exact congrArg (List.map (timerImage (Signed 64))) hdue
  · have hreplace := Buckets.replace_map (timerImage (Signed 64)) w.wheel.buckets
      (w.wheel.now % w.wheel.slots)
      ((w.wheel.bucket (w.wheel.now % w.wheel.slots)).filter fun t => w.wheel.now < t.deadline)
    simp only [Function.comp_def]
    rw [hkeep, show (image bits w).buckets = w.wheel.buckets.map (List.map (timerImage (Signed 64)))
      from rfl, hreplace]
    rfl

/-- The wheel after the turns of a tick, before its end. -/
theorem Wraps.turned (hw : Wraps bits w) {u : ℕ × World κ}
    (hu : u = (HierarchicalTimingWheel.drain { w.wheel with now := w.wheel.now + 1 }).1.foldl
      (World.turn World.idle)
      (0, { w with wheel := (HierarchicalTimingWheel.drain { w.wheel with now := w.wheel.now + 1 }).2 })) :
    u.2.wheel.slots = w.wheel.slots ∧ u.2.wheel.now = w.wheel.now + 1 ∧
      ∀ t ∈ u.2.wheel.held, t.deadline < w.wheel.now + 2 ^ 63 := by
  set v : HierarchicalTimingWheel κ := { w.wheel with now := w.wheel.now + 1 }
  obtain ⟨size, hwheel⟩ := PortWheel.turns_idle_wheel v.drain.1 0 { w with wheel := v.drain.2 }
  rw [← hu] at hwheel
  refine ⟨by rw [hwheel]; rfl, by rw [hwheel]; rfl, fun t ht => ?_⟩
  have hperm := HierarchicalTimingWheel.held_drain (w := v) hw.ok.pos
  rw [hwheel] at ht
  exact hw.held t (hperm.mem_iff.mp (List.mem_append_right _ ht))

theorem Wraps.round (hw : Wraps bits w) (hclock : w.wheel.now + 1 + w.wheel.slots ≤ 2 ^ 63) :
    Wraps bits (World.round World.idle w).2 ∧
      (World.round World.idle w).2.wheel.slots = w.wheel.slots := by
  set v : HierarchicalTimingWheel κ := { w.wheel with now := w.wheel.now + 1 } with hv
  set u := v.drain.1.foldl (World.turn World.idle) (0, { w with wheel := v.drain.2 }) with hu
  have hround := World.round_eq World.idle w hv hu
  obtain ⟨hslots, hnow, hheld⟩ := hw.turned hu
  obtain ⟨hs, hn, -⟩ := u.2.wheel.endTick_frame
  have hok := (hw.ok.round World.idle).1
  have hs' : u.2.wheel.endTick.slots = w.wheel.slots := hs.trans hslots
  have hn' : u.2.wheel.endTick.now = w.wheel.now + 1 := hn.trans hnow
  rw [hround] at hok ⊢
  refine ⟨⟨hok, ?_, ?_, fun t ht => ?_⟩, hs'⟩
  · show Spans bits u.2.wheel.endTick.slots
    rw [hs']
    exact hw.spans
  · show u.2.wheel.endTick.now + u.2.wheel.endTick.slots ≤ 2 ^ 63
    rw [hs', hn']
    exact hclock
  · show t.deadline < u.2.wheel.endTick.now + 2 ^ 63
    have hperm := HierarchicalTimingWheel.held_endTick (w := u.2.wheel) (hslots ▸ hw.ok.pos)
    have := hheld t (hperm.mem_iff.mp ht)
    omega

theorem tick_image (hw : Wraps bits w) (hclock : w.wheel.now + 1 + w.wheel.slots ≤ 2 ^ 63) :
    tick { image bits w with now := (image bits w).now + 1 } =
      .ok (((World.round World.idle w).1 : Signed bits), image bits (World.round World.idle w).2) := by
  set v : HierarchicalTimingWheel κ := { w.wheel with now := w.wheel.now + 1 } with hv
  set u := v.drain.1.foldl (World.turn World.idle) (0, { w with wheel := v.drain.2 }) with hu
  have hround := World.round_eq World.idle w hv hu
  obtain ⟨hslots, hnow, hheld⟩ := hw.turned hu
  have hvnow : v.now < 2 ^ 63 := by
    have hpos := hw.ok.pos
    have : v.now = w.wheel.now + 1 := rfl
    omega
  have himage : ({ image bits w with now := (image bits w).now + 1 } : IntWheel bits κ) =
      image bits { w with wheel := v } := by
    simp [image, hv]
  have hslot : (image bits { w with wheel := v }).slotOf (image bits { w with wheel := v }).now =
      some (v.now % v.slots) := slotOf_image hw.spans hvnow
  have hbucket : ∀ t ∈ v.bucket (v.now % v.slots), t.deadline < 2 ^ 63 := by
    intro t ht
    have hrange : t.deadline < w.wheel.now + w.wheel.slots := (hw.ok.bucket _ t ht).inRange
    omega
  obtain ⟨hdue, hkeep⟩ := @drain_image bits κ { w with wheel := v } hvnow hbucket
  have hturns := @turns_image bits κ v.drain.1 { w with wheel := v.drain.2 } 0
  rw [← hu, Nat.cast_zero] at hturns
  have hend := @endTick_image bits κ u.2 (hslots ▸ hw.spans)
    (by rw [hslots, hnow]; exact hclock) fun t ht => by
      have := hheld t (List.mem_append_right _ ht)
      omega
  rw [hslots, hnow] at hend
  rw [himage]
  unfold tick
  rw [hslot]
  simp only []
  rw [hdue, hkeep, hturns]
  simp only []
  rw [hend, hround]

/-! ## Operations -/

theorem advanceLoop_image {target : Signed 64} (hw : Wraps bits w)
    (htarget : target.toInt + (w.wheel.slots : ℤ) ≤ 2 ^ 63) (n fired : ℕ) :
    advanceLoop target n (fired : Signed bits) (image bits w) =
        .ok (((World.advanceLoop World.idle target.toInt n fired w).1 : Signed bits),
          image bits (World.advanceLoop World.idle target.toInt n fired w).2) ∧
      Wraps bits (World.advanceLoop World.idle target.toInt n fired w).2 ∧
      (World.advanceLoop World.idle target.toInt n fired w).2.wheel.slots = w.wheel.slots := by
  induction n generalizing w fired with
  | zero => exact ⟨rfl, hw, rfl⟩
  | succ n ih =>
    have hnow : w.wheel.now < 2 ^ 63 := by
      have := hw.clock
      have := hw.ok.pos
      omega
    have hiff : (image bits w).now < target ↔ (w.wheel.now : ℤ) < target.toInt := by
      rw [Signed.lt_iff, show (image bits w).now = ((w.wheel.now : ℕ) : Signed 64) from rfl,
        toInt_time hnow]
    rw [advanceLoop, World.advanceLoop_succ]
    by_cases hlt : (w.wheel.now : ℤ) < target.toInt
    · have hclock : w.wheel.now + 1 + w.wheel.slots ≤ 2 ^ 63 := by omega
      obtain ⟨hround, hslots⟩ := hw.round hclock
      rw [if_pos hlt, if_pos (hiff.mpr hlt), tick_image hw hclock]
      obtain ⟨hloop, hend, hsame⟩ := ih hround (hslots ▸ htarget) (fired + (World.round World.idle w).1)
      refine ⟨?_, hend, hsame.trans hslots⟩
      rw [Nat.cast_add] at hloop
      exact hloop
    · rw [if_neg hlt, if_neg fun h => hlt (hiff.mp h)]
      exact ⟨rfl, hw, rfl⟩

theorem advance_image {target : Signed 64} (hw : Wraps bits w)
    (htarget : target.toInt + (w.wheel.slots : ℤ) ≤ 2 ^ 63) :
    advance (image bits w) target =
        .ok (((w.advance World.idle target.toInt).1 : Signed bits),
          image bits (w.advance World.idle target.toInt).2) ∧
      Wraps bits (w.advance World.idle target.toInt).2 ∧
      (w.advance World.idle target.toInt).2.wheel.slots = w.wheel.slots := by
  have hnow : w.wheel.now < 2 ^ 63 := by
    have := hw.clock
    have := hw.ok.pos
    omega
  have hfuel : (image bits w).now.toInt = w.wheel.now := toInt_time hnow
  have hloop := advanceLoop_image hw htarget (target.toInt - w.wheel.now).toNat 0
  unfold advance
  rw [hfuel]
  rw [Nat.cast_zero] at hloop
  exact hloop

/-! ## Counts -/

theorem created_turns (due : List (Timer κ)) (fired : ℕ) (w : World κ) :
    (due.foldl (World.turn World.idle) (fired, w)).2.created = w.created := by
  induction due generalizing fired w with
  | nil => rfl
  | cons t due ih =>
    rw [List.foldl_cons]
    refine (ih _ _).trans ?_
    show (World.turn World.idle (fired, w) t).2.created = w.created
    rw [World.turn_eq]
    show (World.called World.idle w t).created = w.created
    unfold World.called
    split <;> rfl

theorem created_advance (w : World κ) (target : ℤ) :
    (w.advance World.idle target).2.created = w.created := by
  refine World.advanceLoop_induct (P := fun v => v.created = w.created) ?_ target _ 0 rfl
  intro v hv
  exact (created_turns _ 0 _).trans hv

/-- The callbacks that an `advance` runs do not outnumber the timers. -/
theorem fired_le_created (hw : w.Ok) (target : ℤ) :
    (w.advance World.idle target).1 ≤ w.created := by
  obtain ⟨hok, -, new, hev, hfired⟩ := hw.advance World.idle target
  have hlen := hok.ids.length_eq
  simp only [World.timers, List.length_map, List.length_append, List.length_range, hev.turns,
    created_advance] at hlen
  have hcalls : (World.callsIn new).length ≤ new.length := by
    rw [World.callsIn, List.length_map]
    exact List.length_filter_le _ _
  omega

/-- Nor do the timers on the wheel. -/
theorem size_le_created (hw : w.Ok) : 0 ≤ w.wheel.size ∧ w.wheel.size ≤ w.created := by
  have hlen := hw.ids.length_eq
  have hsize := hw.size
  simp only [World.timers, List.length_map, List.length_append, List.length_range] at hlen
  simp only [List.length_nil] at hsize
  omega

/-! ## Runs -/

/-- **One operation** on a wheel whose clock stays one revolution before the end of its range, and
whose timers can be counted. -/
theorem perform_image (hw : Wraps bits w) (o : Op κ)
    (ho : ∀ target, o = .advance target → target.toInt + (w.wheel.slots : ℤ) ≤ 2 ^ 63)
    (hcount : w.created < 2 ^ (bits - 1)) :
    perform (image bits w) o =
        (.ofAnswer (w.perform (fun _ _ => []) o.exact).1,
          image bits (w.perform (fun _ _ => []) o.exact).2) ∧
      Wraps bits (w.perform (fun _ _ => []) o.exact).2 ∧
      (w.perform (fun _ _ => []) o.exact).2.wheel.slots = w.wheel.slots ∧
      (w.perform (fun _ _ => []) o.exact).2.created ≤ w.created + if o.schedules then 1 else 0 := by
  cases o with
  | schedule delay callback =>
    by_cases hneg : delay.toInt < 0
    · -- the delay is rejected
      have hexact : w.perform (fun _ _ => []) (Op.exact (.schedule delay callback)) =
          (.scheduled (.error "delay must be >= 0"), w) := by
        simp only [Op.exact, World.perform, World.schedule, if_pos hneg]
      have hport : (image bits w).schedule delay callback = .error (image bits w) := by
        unfold schedule
        exact if_pos hneg
      rw [hexact]
      refine ⟨?_, hw, rfl, Nat.le_add_right _ _⟩
      simp only [perform, hport, Given.ofAnswer]
    · obtain ⟨n, hn⟩ := Int.eq_ofNat_of_zero_le (not_lt.mp hneg)
      obtain ⟨-, hhi⟩ := Signed.inRange_toInt delay
      have hlt : n < 2 ^ 63 := by omega
      have hdelay : delay = ((n : ℕ) : Signed 64) := by
        rw [← Signed.intCast_toInt delay, hn, Int.cast_natCast]
      have hexact : w.perform (fun _ _ => []) (Op.exact (.schedule delay callback)) =
          (.scheduled (.ok (w.nextTimer n callback)), w.register n callback) := by
        simp only [Op.exact, World.perform, World.schedule, if_neg hneg]
        rw [hn, Int.toNat_natCast]
      rw [hexact]
      refine ⟨?_, hw.register hlt callback, World.slots_register _ _ _, Nat.le_refl _⟩
      rw [hdelay]
      simp only [perform, schedule_image hw hlt callback, Given.ofAnswer]
  | setCancelled id cancelled =>
    exact ⟨rfl, ⟨World.Inv.setCancelled hw.ok id cancelled, hw.spans, hw.clock, hw.held⟩, rfl,
      Nat.le_add_right _ _⟩
  | advance target =>
    obtain ⟨hadvance, hend, hslots⟩ := advance_image hw (ho target rfl)
    have hfired := fired_le_created hw.ok target.toInt
    have hexactly : (((w.advance World.idle target.toInt).1 : ℕ) : Signed bits).toInt =
        (w.advance World.idle target.toInt).1 :=
      Signed.toInt_natCast hw.spans.pos (Nat.lt_of_le_of_lt hfired hcount)
    refine ⟨?_, hend, hslots, ?_⟩
    · simp only [perform, hadvance, hexactly]
      rfl
    · exact Nat.le_add_right_of_le (Nat.le_of_eq (created_advance w target.toInt))

theorem runAll_image (hw : Wraps bits w) {ops : List (Op κ)}
    (hops : ∀ target, Op.advance target ∈ ops → target.toInt + (w.wheel.slots : ℤ) ≤ 2 ^ 63)
    (hcount : w.created + ops.countP Op.schedules < 2 ^ (bits - 1)) :
    Answers.runAll perform (image bits w) ops =
        ((Answers.runAll (World.perform fun _ _ => []) w (ops.map Op.exact)).1.map .ofAnswer,
          image bits (Answers.runAll (World.perform fun _ _ => []) w (ops.map Op.exact)).2) ∧
      Wraps bits (Answers.runAll (World.perform fun _ _ => []) w (ops.map Op.exact)).2 ∧
      (Answers.runAll (World.perform fun _ _ => []) w (ops.map Op.exact)).2.created < 2 ^ (bits - 1) := by
  induction ops generalizing w with
  | nil => exact ⟨rfl, hw, Nat.lt_of_le_of_lt (Nat.le_add_right _ _) hcount⟩
  | cons o ops ih =>
    have hfirst : ∀ target, o = .advance target → target.toInt + (w.wheel.slots : ℤ) ≤ 2 ^ 63 := by
      rintro target rfl
      exact hops target List.mem_cons_self
    rw [List.countP_cons] at hcount
    obtain ⟨hperform, hnext, hslots, hcreated⟩ := perform_image hw o hfirst (by omega)
    obtain ⟨hrest, hend, hfew⟩ := ih hnext
      (fun target ht => by
        rw [hslots]
        exact hops target (List.mem_cons_of_mem o ht))
      (by omega)
    refine ⟨?_, hend, hfew⟩
    simp only [Answers.runAll, List.map_cons]
    rw [hperform]
    simp only [hrest]

/-- `max 1 levels` is exact. -/
theorem max_levels (hone : Signed.InRange bits 1) (hpos : 0 < bits) (levels : Signed bits) :
    max 1 levels = ((max levels.toInt.toNat 1 : ℕ) : Signed bits) := by
  have hval : (1 : Signed bits).toInt = 1 := by
    rw [← Int.cast_one]
    exact Signed.toInt_intCast hpos hone
  rcases le_total 1 levels with hle | hle
  · have hle' : (1 : Signed bits).toInt ≤ levels.toInt := hle
    have hnat : ((max levels.toInt.toNat 1 : ℕ) : ℤ) = levels.toInt := by omega
    rw [max_eq_right hle, ← Int.cast_natCast, hnat, Signed.intCast_toInt]
  · have hle' : levels.toInt ≤ (1 : Signed bits).toInt := hle
    have hnat : max levels.toInt.toNat 1 = 1 := by omega
    rw [max_eq_left hle, hnat, Nat.cast_one]

/-- The constructor, when the slots can be counted. -/
theorem withConfig_eq {slotsPerWheel levels : Signed bits} (hbits : 0 < bits)
    (hpos : 0 < slotsPerWheel.toInt)
    (hslots : slotsPerWheel.toInt.toNat * max levels.toInt.toNat 1 < 2 ^ (bits - 1)) :
    (withConfig slotsPerWheel levels : Option (IntWheel bits κ)) =
      some (image bits (World.new slotsPerWheel.toInt.toNat levels.toInt.toNat)) := by
  obtain ⟨-, hhi⟩ := Signed.inRange_toInt slotsPerWheel
  have hone : Signed.InRange bits 1 := ⟨by omega, by omega⟩
  have hcast : slotsPerWheel = ((slotsPerWheel.toInt.toNat : ℕ) : Signed bits) := by
    rw [← Int.cast_natCast, Int.toNat_of_nonneg (Int.le_of_lt hpos), Signed.intCast_toInt]
  have hprod : slotsPerWheel * max 1 levels =
      ((slotsPerWheel.toInt.toNat * max levels.toInt.toNat 1 : ℕ) : Signed bits) := by
    rw [max_levels hone hbits levels, Nat.cast_mul, ← hcast]
  have hval := Signed.toInt_natCast hbits hslots
  have hneg : ¬ slotsPerWheel * max 1 levels < 0 := by
    rw [hprod, Signed.lt_iff, hval, show (0 : Signed bits).toInt = 0 from
      Signed.toInt_natCast (n := 0) hbits (Nat.two_pow_pos _)]
    omega
  rw [hprod] at hneg
  unfold withConfig
  simp only [hprod]
  rw [if_neg hneg, hval, Int.toNat_natCast]
  simp [image, World.new, HierarchicalTimingWheel.withConfig]

theorem wraps_new (slotsPerWheel levels : ℕ)
    (hs : Spans bits (slotsPerWheel * max levels 1)) :
    Wraps bits (World.new slotsPerWheel levels : World κ) := by
  have hpos : 0 < slotsPerWheel := Nat.pos_of_mul_pos_right hs.slots_pos
  refine ⟨World.ok_new slotsPerWheel levels hpos, hs, ?_, ?_⟩
  · show 0 + slotsPerWheel * max levels 1 ≤ 2 ^ 63
    have := hs.lt
    omega
  · intro t ht
    simp [World.new, HierarchicalTimingWheel.held, HierarchicalTimingWheel.withConfig] at ht

/-- **Wrapped deadlines do no harm.** With any delays of 64 bits, as long as the clock is only
advanced to at least one revolution before the end of its range, and an `int` can count the slots and
the timers that are scheduled, the wheel gives the answers of exact arithmetic and is in its states:
nothing panics but a negative delay, and a timer whose deadline is out of range waits. -/
theorem wrapping_exact (hbits : 0 < bits) (hwide : bits ≤ 64) (slotsPerWheel levels : Signed bits)
    (hpos : 0 < slotsPerWheel.toInt)
    (hslots : slotsPerWheel.toInt.toNat * max levels.toInt.toNat 1 < 2 ^ (bits - 1))
    (ops : List (Op κ))
    (hops : ∀ target, Op.advance target ∈ ops →
      target.toInt + ((slotsPerWheel.toInt.toNat * max levels.toInt.toNat 1 : ℕ) : ℤ) ≤ 2 ^ 63)
    (hcount : ops.countP Op.schedules < 2 ^ (bits - 1)) :
    ∃ w, withConfig slotsPerWheel levels = some w ∧
      let port := Answers.runAll perform w ops
      let exact := Answers.runAll (World.perform fun _ _ => [])
        (.new slotsPerWheel.toInt.toNat levels.toInt.toNat) (ops.map Op.exact)
      port.1 = exact.1.map .ofAnswer ∧ port.2 = image bits exact.2 ∧
        port.2.slots.toInt = exact.2.wheel.slots ∧ port.2.size.toInt = exact.2.wheel.size := by
  have hnat : 0 < slotsPerWheel.toInt.toNat := by omega
  have hs : Spans bits (slotsPerWheel.toInt.toNat * max levels.toInt.toNat 1) :=
    ⟨hbits, hwide, Nat.mul_pos hnat (by omega), hslots⟩
  obtain ⟨hrun, hend, hfew⟩ := @runAll_image bits κ _ (wraps_new _ _ hs) ops hops
    (by simpa [World.new] using hcount)
  refine ⟨_, withConfig_eq hbits hpos hslots, ?_⟩
  intro port exact
  have hport : port = (exact.1.map .ofAnswer, image bits exact.2) := hrun
  rw [hport]
  refine ⟨rfl, rfl, hend.spans.toInt, ?_⟩
  obtain ⟨hlo, hhi⟩ := size_le_created hend.ok
  have hpow : -2 ^ (bits - 1) ≤ (0 : ℤ) := by
    have : (0 : ℤ) < 2 ^ (bits - 1) := Int.pow_pos (by decide)
    omega
  exact Signed.toInt_intCast hbits
    ⟨Int.le_trans hpow hlo, Int.lt_of_le_of_lt hhi (by exact_mod_cast hfew)⟩

/-- The greatest delay at the time 1, in Java: the deadline wraps around, and the timer waits while
another one fires. -/
theorem wrapping_exact_greatest :
    ∃ w, (withConfig 4 1 : Option (IntWheel 32 ℕ)) = some w ∧
      let port := (Answers.runAll perform w
        [.advance 1, .schedule ((2 ^ 63 - 1 : ℤ) : Signed 64) 7, .schedule 2 8, .advance 9]).2
      port.calls.map (fun c => (c.1.toInt, c.2.callback)) = [(3, 8)] ∧
        port.overflow.map (fun t => (t.deadline.toInt, t.callback)) = [(-2 ^ 63, 7)] ∧
        port.size.toInt = 1 := by
  have hdelay : ((4 : Signed 32).toInt.toNat * max (1 : Signed 32).toInt.toNat 1 : ℕ) = 4 := by decide
  have hone : (1 : Signed 64).toInt = 1 := by decide
  have hnine : (9 : Signed 64).toInt = 9 := by decide
  obtain ⟨w, hw, -, himage, -, hsize⟩ := @wrapping_exact 32 ℕ (by decide) (by decide) 4 1 (by decide)
    (by decide)
    [.advance 1, .schedule ((2 ^ 63 - 1 : ℤ) : Signed 64) 7, .schedule 2 8, .advance 9]
    (by simp [hdelay, hone, hnine]) (by decide)
  refine ⟨w, hw, ?_, ?_, ?_⟩
  · rw [himage]
    decide
  · rw [himage]
    decide
  · rw [hsize]
    decide

end IntWheel

end DurableExecution
