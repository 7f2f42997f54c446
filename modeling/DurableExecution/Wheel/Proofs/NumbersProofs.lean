import Mathlib.Algebra.Order.Ring.Defs
import Mathlib.Data.Nat.Cast.Order.Ring
import Mathlib.Data.Int.Cast.Lemmas
import DurableExecution.Wheel.Numbers
import DurableExecution.Wheel.Proofs.OrderProofs

/-!
# Proofs: the numbers that the ports compute with

As long as its numbers are natural numbers that it computes with exactly, a port is the wheel of the
other modules: `image` shows a world in the numbers of the port, and every operation on the image is
the image of the operation.
-/

namespace DurableExecution

variable {ν κ : Type} [Ring ν]

/-- The port computes exactly with the natural numbers that satisfy `P`. -/
structure Arithmetic.Exact (A : Arithmetic ν) (P : ℕ → Prop) : Prop where
  down : ∀ {m n : ℕ}, m ≤ n → P n → P m
  fits_iff : ∀ n : ℕ, A.fits (n : ν) = true ↔ P n
  fits_sub : ∀ {m n : ℕ}, P m → P n → A.fits ((m : ν) - (n : ν)) = true
  index : ∀ {n slots : ℕ}, P n → 0 < slots → P slots → A.index (n : ν) slots = some (n % slots)
  countDown : ∀ {size : ℤ}, 0 < size → A.countDown size = some (size - 1)

namespace PortWheel

variable (ν) in
/-- A timer in the numbers of the port. -/
def timerImage (t : Timer κ) : PortTimer ν κ := ⟨t.id, (t.deadline : ν), t.callback⟩

variable (ν) in
/-- A world in the numbers of the port. -/
def image (w : World κ) : PortWheel ν κ where
  slots := w.wheel.slots
  buckets := w.wheel.buckets.map (List.map (timerImage ν))
  overflow := w.wheel.overflow.map (timerImage ν)
  now := w.wheel.now
  size := w.wheel.size
  cancelled := w.cancelled
  created := w.created
  calls := w.calls.map fun c => ((c.now : ℤ), timerImage ν c.timer)

variable {A : Arithmetic ν} {P : ℕ → Prop} {w : World κ} {t : Timer κ}

theorem held_image (w : World κ) : (image ν w).held = w.wheel.held.map (timerImage ν) := by
  unfold held HierarchicalTimingWheel.held image
  rw [List.map_append, List.map_flatten]

variable (ν) in
theorem image_new (slotsPerWheel levels : ℕ) :
    image ν (World.new slotsPerWheel levels : World κ) = withConfig slotsPerWheel levels := by
  simp [image, World.new, HierarchicalTimingWheel.withConfig, withConfig]

theorem slotOf_image (hA : A.Exact P) (hpos : 0 < w.wheel.slots) (hslots : P w.wheel.slots) {n : ℕ}
    (hn : P n) : (image ν w).slotOf A (n : ν) = some (n % w.wheel.slots) := by
  have hlt : n % w.wheel.slots < w.wheel.buckets.length := w.wheel.slot_lt hpos n
  unfold slotOf
  rw [show A.index (n : ν) (image ν w).slots = some (n % w.wheel.slots) from hA.index hn hpos hslots]
  simp [image, hlt]

/-- The image of a world with a timer in its bucket. -/
theorem image_push (w : World κ) (t : Timer κ) :
    { image ν w with
      buckets := Buckets.push (image ν w).buckets (t.deadline % w.wheel.slots) (timerImage ν t) } =
    image ν { w with wheel := w.wheel.push t } := by
  simp only [image, HierarchicalTimingWheel.push, Buckets.push_map]

/-! ## Turns -/

/-- The turns of the due timers, whose callbacks leave the wheel alone. -/
theorem turns_image (hA : A.Exact P) {due : List (Timer κ)} {edge : ℕ} (hw : w.Inv due edge)
    (fired : ℕ) :
    turns A (due.map (timerImage ν)) fired (image ν w) =
      .ok ((due.foldl (World.turn World.idle) (fired, w)).1,
        image ν (due.foldl (World.turn World.idle) (fired, w)).2) := by
  induction due generalizing w fired with
  | nil => rfl
  | cons t due ih =>
    have hsize : 0 < w.wheel.size := by
      have := hw.size
      rw [List.length_cons] at this
      omega
    have hih := ih (hw.turn World.idle fired).1 (World.turn World.idle (fired, w) t).1
    rw [List.map_cons, turns, List.foldl_cons, ← hih]
    cases hc : w.cancelled t.id with
    | true =>
      simp only [image, timerImage, hc, if_true, hA.countDown hsize, World.turn]
    | false =>
      simp only [image, timerImage, hc, Bool.false_eq_true, if_false, hA.countDown hsize, World.turn,
        World.call, World.idle, List.foldl_nil, List.map_append, List.map_cons, List.map_nil]

/-- What a world has to satisfy: the invariant, and all its numbers are among those of the port. -/
structure Fit (P : ℕ → Prop) (w : World κ) : Prop where
  ok : w.Ok
  slots : P w.wheel.slots
  now : P w.wheel.now
  held : ∀ t ∈ w.wheel.held, P t.deadline

theorem turns_idle_wheel (due : List (Timer κ)) (fired : ℕ) (w : World κ) :
    ∃ size, (due.foldl (World.turn World.idle) (fired, w)).2.wheel = { w.wheel with size } := by
  induction due generalizing w fired with
  | nil => exact ⟨_, rfl⟩
  | cons t due ih =>
    obtain ⟨size, hsize⟩ := ih (World.turn World.idle (fired, w) t).1
      (World.turn World.idle (fired, w) t).2
    refine ⟨size, ?_⟩
    rw [List.foldl_cons, hsize]
    cases hc : w.cancelled t.id with
    | true => simp only [World.turn, hc, if_true]
    | false =>
      simp only [World.turn, World.call, World.idle, List.foldl_nil, hc, Bool.false_eq_true, if_false]

theorem Fit.register (hw : Fit P w) {delay : ℕ} (hd : P (w.wheel.now + delay))
    (callback : κ) : Fit P (w.register delay callback) := by
  refine ⟨(hw.ok.register delay callback).1, ?_, ?_, ?_⟩
  · rw [World.slots_register]
    exact hw.slots
  · rw [World.now_register]
    exact hw.now
  · intro t ht
    have hperm := HierarchicalTimingWheel.held_place hw.ok.pos (w.nextTimer delay callback)
    rcases List.mem_cons.mp (hperm.mem_iff.mp ht) with rfl | ht
    · exact hd
    · exact hw.held t ht

/-! ## Placing a timer -/

variable [LinearOrder ν] [IsStrictOrderedRing ν]

theorem near_image (hA : A.Exact P) (hnow : P w.wheel.now) (ht : P t.deadline) :
    (image ν w).near A (timerImage ν t) =
      some (decide (t.deadline < w.wheel.now + w.wheel.slots)) := by
  have hlt : (t.deadline : ν) - (w.wheel.now : ν) < (w.wheel.slots : ν) ↔
      t.deadline < w.wheel.now + w.wheel.slots := by
    rw [sub_lt_iff_lt_add', ← Nat.cast_add, Nat.cast_lt]
  unfold near
  simp only [image, timerImage, Int.cast_natCast, hA.fits_sub ht hnow, if_true, hlt]

theorem place_image (hA : A.Exact P) (hpos : 0 < w.wheel.slots) (hslots : P w.wheel.slots)
    (hnow : P w.wheel.now) (ht : P t.deadline) :
    (image ν w).place A (timerImage ν t) = .ok (image ν { w with wheel := w.wheel.place t }) := by
  unfold place HierarchicalTimingWheel.place
  rw [near_image hA hnow ht]
  by_cases hlt : t.deadline < w.wheel.now + w.wheel.slots
  · have hslot : (image ν w).slotOf A (timerImage ν t).deadline = some (t.deadline % w.wheel.slots) :=
      slotOf_image hA hpos hslots ht
    simp only [hlt, decide_true, if_true, hslot, image_push]
  · simp only [hlt, decide_false, if_false]
    simp [image]

theorem schedule_image (hA : A.Exact P) (hpos : 0 < w.wheel.slots) (hslots : P w.wheel.slots)
    (hnow : P w.wheel.now) {delay : ℕ} (hd : P (w.wheel.now + delay)) (callback : κ) :
    (image ν w).schedule A (delay : ν) callback =
      .ok (timerImage ν (w.nextTimer delay callback), image ν (w.register delay callback)) := by
  have hdeadline : ((image ν w).now : ν) + (delay : ν) = ((w.wheel.now + delay : ℕ) : ν) := by
    simp [image]
  have hneg : ¬ ((delay : ν) < 0) := not_lt.mpr (Nat.cast_nonneg delay)
  have hplace := place_image (A := A) (t := w.nextTimer delay callback) hA hpos hslots hnow hd
  unfold schedule
  rw [if_neg hneg]
  simp only [hdeadline, (hA.fits_iff _).mpr hd, if_true]
  rw [show (⟨(image ν w).created, ((w.wheel.now + delay : ℕ) : ν), callback⟩ : PortTimer ν κ) =
    timerImage ν (w.nextTimer delay callback) from rfl, hplace]
  rfl

/-! ## Ticks -/

theorem rehome_image (hA : A.Exact P) (hpos : 0 < w.wheel.slots) (hslots : P w.wheel.slots)
    (hnow : P w.wheel.now) (o : List (PortTimer ν κ)) {ts : List (Timer κ)}
    (hts : ∀ t ∈ ts, P t.deadline) :
    rehome A (ts.map (timerImage ν)) (w.wheel.overflow.map (timerImage ν))
        { image ν w with overflow := o } =
      .ok (image ν { w with wheel := ts.foldl (fun v t => v.place t) w.wheel }) := by
  induction ts generalizing w with
  | nil => rfl
  | cons t ts ih =>
    obtain ⟨ht, hrest⟩ := List.forall_mem_cons.mp hts
    have hnear : ({ image ν w with overflow := o } : PortWheel ν κ).near A (timerImage ν t) =
        some (decide (t.deadline < w.wheel.now + w.wheel.slots)) := near_image hA hnow ht
    have hslot : ({ image ν w with overflow := o } : PortWheel ν κ).slotOf A
        (timerImage ν t).deadline = some (t.deadline % w.wheel.slots) :=
      slotOf_image hA hpos hslots ht
    by_cases hlt : t.deadline < w.wheel.now + w.wheel.slots
    · have hplace : w.wheel.place t = w.wheel.push t := by
        rw [HierarchicalTimingWheel.place, if_pos hlt]
      have hpush : { ({ image ν w with overflow := o } : PortWheel ν κ) with
          buckets := Buckets.push (image ν w).buckets (t.deadline % w.wheel.slots) (timerImage ν t) } =
            { image ν { w with wheel := w.wheel.push t } with overflow := o } := by
        rw [← image_push]
      have hih := ih (w := { w with wheel := w.wheel.push t }) hpos hslots hnow hrest
      rw [List.map_cons, rehome, hnear, List.foldl_cons, hplace]
      simp only [hlt, decide_true, hslot]
      exact hpush ▸ hih
    · have hplace : w.wheel.place t = { w.wheel with overflow := w.wheel.overflow ++ [t] } := by
        rw [HierarchicalTimingWheel.place, if_neg hlt]
      have hih := ih (w := { w with wheel := { w.wheel with overflow := w.wheel.overflow ++ [t] } })
        hpos hslots hnow hrest
      rw [List.map_append] at hih
      rw [List.map_cons, rehome, hnear, List.foldl_cons, hplace]
      simp only [hlt, decide_false]
      exact hih

theorem endTick_image (hA : A.Exact P) (hpos : 0 < w.wheel.slots) (hslots : P w.wheel.slots)
    (hnow : P w.wheel.now) (hheld : ∀ t ∈ w.wheel.overflow, P t.deadline) :
    (image ν w).endTick A (w.wheel.now % w.wheel.slots) =
      .ok (image ν { w with wheel := w.wheel.endTick }) := by
  have hlen : (image ν w).overflow.length > 0 ↔ w.wheel.overflow ≠ [] := by
    simp [image, List.length_pos_iff]
  unfold endTick HierarchicalTimingWheel.endTick
  by_cases hend : w.wheel.now % w.wheel.slots = w.wheel.slots - 1 ∧ w.wheel.overflow ≠ []
  · have hrehome := rehome_image (w := { w with wheel := { w.wheel with overflow := [] } }) hA hpos
      hslots hnow (w.wheel.overflow.map (timerImage ν)) hheld
    rw [if_pos ⟨hend.1, hlen.mpr hend.2⟩, if_pos hend]
    exact hrehome
  · rw [if_neg fun hc => hend ⟨hc.1, hlen.mp hc.2⟩, if_neg hend]

/-- The current bucket in the numbers of the port, split into what is due and what stays. -/
theorem drain_image (w : World κ) :
    ((Buckets.get (image ν w).buckets (w.wheel.now % w.wheel.slots)).filter fun t =>
        t.deadline ≤ (((image ν w).now : ℤ) : ν)) = w.wheel.drain.1.map (timerImage ν) ∧
      { image ν w with
        buckets := Buckets.replace (image ν w).buckets (w.wheel.now % w.wheel.slots)
          ((Buckets.get (image ν w).buckets (w.wheel.now % w.wheel.slots)).filter fun t =>
            (((image ν w).now : ℤ) : ν) < t.deadline) } =
        image ν { w with wheel := w.wheel.drain.2 } := by
  have hnow : (((image ν w).now : ℤ) : ν) = (w.wheel.now : ν) := Int.cast_natCast _
  have hget : Buckets.get (image ν w).buckets (w.wheel.now % w.wheel.slots) =
      (w.wheel.bucket (w.wheel.now % w.wheel.slots)).map (timerImage ν) := Buckets.get_map _ _ _
  rw [hnow, hget, List.filter_map, List.filter_map]
  constructor
  · simp [Function.comp_def, timerImage, HierarchicalTimingWheel.drain]
  · simp only [Function.comp_def, timerImage, Nat.cast_lt]
    rw [show (image ν w).buckets = w.wheel.buckets.map (List.map (timerImage ν)) from rfl]
    have hreplace := Buckets.replace_map (timerImage ν) w.wheel.buckets
      (w.wheel.now % w.wheel.slots)
      ((w.wheel.bucket (w.wheel.now % w.wheel.slots)).filter fun t => w.wheel.now < t.deadline)
    rw [hreplace]
    rfl

/-- The wheel after the turns of a tick, before its end: the clock shows the tick, and the timers are
some of those that were on the wheel. -/
theorem Fit.turned (hw : Fit P w) {u : ℕ × World κ}
    (hu : u = (HierarchicalTimingWheel.drain { w.wheel with now := w.wheel.now + 1 }).1.foldl
      (World.turn World.idle)
      (0, { w with wheel := (HierarchicalTimingWheel.drain { w.wheel with now := w.wheel.now + 1 }).2 })) :
    u.2.wheel.slots = w.wheel.slots ∧ u.2.wheel.now = w.wheel.now + 1 ∧
      ∀ t ∈ u.2.wheel.held, P t.deadline := by
  set v : HierarchicalTimingWheel κ := { w.wheel with now := w.wheel.now + 1 }
  obtain ⟨size, hwheel⟩ := turns_idle_wheel v.drain.1 0 { w with wheel := v.drain.2 }
  rw [← hu] at hwheel
  refine ⟨by rw [hwheel]; rfl, by rw [hwheel]; rfl, fun t ht => ?_⟩
  have hperm := HierarchicalTimingWheel.held_drain (w := v) hw.ok.pos
  rw [hwheel] at ht
  exact hw.held t (hperm.mem_iff.mp (List.mem_append_right _ ht))

theorem Fit.round (hw : Fit P w) (hnow : P (w.wheel.now + 1)) :
    Fit P (World.round World.idle w).2 := by
  set v : HierarchicalTimingWheel κ := { w.wheel with now := w.wheel.now + 1 } with hv
  set u := v.drain.1.foldl (World.turn World.idle) (0, { w with wheel := v.drain.2 }) with hu
  have hround := World.round_eq World.idle w hv hu
  obtain ⟨hslots, hnow', hheld⟩ := hw.turned hu
  obtain ⟨hs, hn, -⟩ := u.2.wheel.endTick_frame
  have hok := (hw.ok.round World.idle).1
  rw [hround] at hok ⊢
  refine ⟨hok, ?_, ?_, fun t ht => ?_⟩
  · show P u.2.wheel.endTick.slots
    rw [hs, hslots]
    exact hw.slots
  · show P u.2.wheel.endTick.now
    rw [hn, hnow']
    exact hnow
  · have hperm := HierarchicalTimingWheel.held_endTick (w := u.2.wheel) (hslots ▸ hw.ok.pos)
    exact hheld t (hperm.mem_iff.mp ht)

theorem tick_image (hA : A.Exact P) (hw : Fit P w) (hnow : P (w.wheel.now + 1)) :
    tick A { image ν w with now := (image ν w).now + 1 } =
      .ok ((World.round World.idle w).1, image ν (World.round World.idle w).2) := by
  set v : HierarchicalTimingWheel κ := { w.wheel with now := w.wheel.now + 1 } with hv
  obtain ⟨hdrain, -⟩ := World.Inv.drain hw.ok hv
  set u := v.drain.1.foldl (World.turn World.idle) (0, { w with wheel := v.drain.2 }) with hu
  have hround := World.round_eq World.idle w hv hu
  obtain ⟨hslots, hnow', hheld⟩ := hw.turned hu
  have himage : ({ image ν w with now := (image ν w).now + 1 } : PortWheel ν κ) =
      image ν { w with wheel := v } := by
    simp [image, hv]
  have hslot : (image ν { w with wheel := v }).slotOf A
      (((image ν { w with wheel := v }).now : ℤ) : ν) = some (v.now % v.slots) := by
    rw [show (((image ν { w with wheel := v }).now : ℤ) : ν) = (v.now : ν) from Int.cast_natCast _]
    exact slotOf_image hA hw.ok.pos hw.slots hnow
  obtain ⟨hdue, hkeep⟩ := drain_image (ν := ν) { w with wheel := v }
  have hturns := turns_image hA hdrain 0
  rw [← hu] at hturns
  have hend := endTick_image (w := u.2) hA (hslots ▸ hw.ok.pos) (hslots ▸ hw.slots)
    (hnow' ▸ hnow) fun t ht => hheld t (List.mem_append_right _ ht)
  rw [hslots, hnow'] at hend
  rw [himage]
  unfold tick
  rw [hslot]
  simp only []
  rw [hdue, hkeep, hturns]
  simp only []
  rw [hend, hround]

/-! ## Operations -/

theorem advanceLoop_image (hA : A.Exact P) {target : ℤ} (htarget : ∀ n : ℕ, (n : ℤ) ≤ target → P n)
    (hw : Fit P w) (n fired : ℕ) :
    advanceLoop A target n fired (image ν w) =
        .ok ((World.advanceLoop World.idle target n fired w).1,
          image ν (World.advanceLoop World.idle target n fired w).2) ∧
      Fit P (World.advanceLoop World.idle target n fired w).2 := by
  induction n generalizing w fired with
  | zero => exact ⟨rfl, hw⟩
  | succ n ih =>
    rw [advanceLoop, World.advanceLoop_succ]
    by_cases hlt : (w.wheel.now : ℤ) < target
    · have hnow : P (w.wheel.now + 1) := htarget _ (by omega)
      have hfits : A.fits (((image ν w).now + 1 : ℤ) : ν) = true := by
        rw [show (((image ν w).now + 1 : ℤ) : ν) = ((w.wheel.now + 1 : ℕ) : ν) by simp [image]]
        exact (hA.fits_iff _).mpr hnow
      rw [if_pos hlt, if_pos (show (image ν w).now < target from hlt), if_pos hfits,
        tick_image hA hw hnow]
      exact ih (hw.round hnow) _
    · rw [if_neg hlt, if_neg (show ¬ (image ν w).now < target from hlt)]
      exact ⟨rfl, hw⟩

theorem advance_image (hA : A.Exact P) {target : ℤ} (htarget : ∀ n : ℕ, (n : ℤ) ≤ target → P n)
    (hw : Fit P w) :
    advance A (image ν w) target =
        .ok ((w.advance World.idle target).1, image ν (w.advance World.idle target).2) ∧
      Fit P (w.advance World.idle target).2 :=
  advanceLoop_image hA htarget hw _ 0

end PortWheel

end DurableExecution
