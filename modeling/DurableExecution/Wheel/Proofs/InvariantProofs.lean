import Mathlib.Tactic.Set
import DurableExecution.Wheel.Invariant
import DurableExecution.Wheel.Proofs.WheelProofs

/-!
# Proofs: the invariant of the wheel

Scheduling keeps the invariant at any moment, also from a callback in the middle of a tick. A tick
takes the timers of one bucket, which are exactly those that fire in it, and re-homing puts each
timer into the bucket that the wheel comes to in the tick in which it fires.
-/

namespace DurableExecution

variable {κ : Type}

/-! ## Times -/

theorem revolution_le {slots m n : ℕ} (h : m ≤ n) : revolution slots m ≤ revolution slots n :=
  Nat.div_le_div_right (by omega)

theorem revolution_add (slots n : ℕ) (hpos : 0 < slots) :
    revolution slots (n + slots) = revolution slots n + 1 := by
  unfold revolution
  rw [Nat.add_right_comm, Nat.add_div_right _ hpos]

theorem mod_eq_last_iff {slots n : ℕ} (hpos : 0 < slots) :
    n % slots = slots - 1 ↔ (n + 1) % slots = 0 := by
  have hlt := Nat.mod_lt n hpos
  rw [← Nat.mod_add_mod]
  constructor
  · intro h
    rw [h, Nat.sub_add_cancel hpos, Nat.mod_self]
  · intro h
    by_contra hne
    rw [Nat.mod_eq_of_lt (by omega)] at h
    omega

theorem revolution_of_ne {slots n : ℕ} (hpos : 0 < slots) (h : n % slots ≠ slots - 1) :
    revolution slots n = n / slots := by
  refine Nat.succ_div_of_not_dvd fun hd => h ?_
  exact (mod_eq_last_iff hpos).mpr (Nat.mod_eq_zero_of_dvd hd)

/-- A number is determined by its residue and a window of one revolution. -/
theorem eq_of_mod_eq {slots a b : ℕ} (hmod : a % slots = b % slots) (hle : b ≤ a)
    (hlt : a < b + slots) : a = b := by
  have hdvd := Nat.sub_mod_eq_zero_of_mod_eq hmod
  rw [Nat.mod_eq_of_lt (by omega)] at hdvd
  omega

namespace Timer

variable {slots : ℕ} {t : Timer κ}

theorem fires_of_late (h : t.Late slots) : t.fires slots = t.deadline + slots := if_pos h

theorem fires_of_not_late (h : ¬ t.Late slots) : t.fires slots = t.deadline := if_neg h

theorem le_fires (slots : ℕ) (t : Timer κ) : t.deadline ≤ t.fires slots := by
  unfold fires
  split <;> omega

theorem fires_mod (slots : ℕ) (t : Timer κ) : t.fires slots % slots = t.deadline % slots := by
  unfold fires
  split
  · exact Nat.add_mod_right ..
  · rfl

/-- A timer in a bucket stays so while the clock moves on by one tick, unless it fires then. -/
theorem InBucket.tick {now edge i : ℕ} (h : t.InBucket slots now edge i) (hi : i ≠ (now + 1) % slots) :
    t.InBucket slots (now + 1) edge i where
  slot := h.slot
  after := by
    have hne : t.fires slots ≠ now + 1 := by
      intro heq
      exact hi (by rw [← heq, fires_mod, h.slot])
    have := h.after
    omega
  soon := by
    have := h.soon
    omega
  inRange := by
    have := h.inRange
    omega
  rehomed := h.rehomed

/-- The timers in the current bucket fire in this tick. -/
theorem InBucket.fires_eq {now edge : ℕ} (h : t.InBucket slots now edge ((now + 1) % slots)) :
    t.fires slots = now + 1 := by
  have hafter := h.after
  have hsoon := h.soon
  have hmod : t.fires slots % slots = (now + 1) % slots := by rw [fires_mod, h.slot]
  exact eq_of_mod_eq hmod (by omega) (by omega)

theorem InBucket.edge {now edge edge' i : ℕ} (h : t.InBucket slots now edge i) (he : edge ≤ edge') :
    t.InBucket slots now edge' i :=
  ⟨h.slot, h.after, h.soon, h.inRange, fun hfar => Nat.le_trans (h.rehomed hfar) he⟩

end Timer

namespace World

variable {env : κ → World κ → List (Act κ)} {w : World κ} {pending : List (Timer κ)} {edge : ℕ}

/-! ## Scheduling -/

@[simp] theorem slots_register (w : World κ) (delay : ℕ) (callback : κ) :
    (w.register delay callback).wheel.slots = w.wheel.slots :=
  HierarchicalTimingWheel.slots_place _ _

@[simp] theorem now_register (w : World κ) (delay : ℕ) (callback : κ) :
    (w.register delay callback).wheel.now = w.wheel.now :=
  HierarchicalTimingWheel.now_place _ _

/-- A timer that is due within one revolution goes to the end of its bucket. -/
theorem bucket_register (hpos : 0 < w.wheel.slots) (delay : ℕ) (callback : κ) (i : ℕ) :
    (w.register delay callback).wheel.bucket i = w.wheel.bucket i ++
      if delay < w.wheel.slots ∧ (w.wheel.now + delay) % w.wheel.slots = i then
        [w.nextTimer delay callback]
      else [] := by
  have hplace := HierarchicalTimingWheel.bucket_place hpos (w.nextTimer delay callback) i
  refine hplace.trans ?_
  simp [List.filter_cons, HierarchicalTimingWheel.goesTo, nextTimer]

/-- Any other timer goes to the end of the overflow list. -/
theorem overflow_register (w : World κ) (delay : ℕ) (callback : κ) :
    (w.register delay callback).wheel.overflow = w.wheel.overflow ++
      if w.wheel.slots ≤ delay then [w.nextTimer delay callback] else [] := by
  have hplace := w.wheel.overflow_place (w.nextTimer delay callback)
  refine hplace.trans ?_
  simp [List.filter_cons, HierarchicalTimingWheel.overflows, nextTimer]

theorem inBucket_nextTimer (w : World κ) {delay : ℕ} (callback : κ) (hd : delay < w.wheel.slots) :
    (w.nextTimer delay callback).InBucket w.wheel.slots w.wheel.now edge
      ((w.wheel.now + delay) % w.wheel.slots) := by
  have hdeadline : (w.nextTimer delay callback).deadline = w.wheel.now + delay := rfl
  have hdelay : (w.nextTimer delay callback).delay = delay := rfl
  by_cases hzero : delay = 0
  · have hlate : (w.nextTimer delay callback).Late w.wheel.slots := Or.inl hzero
    have hfires := Timer.fires_of_late hlate
    refine ⟨rfl, ?_, ?_, ?_, ?_⟩
    · omega
    · omega
    · omega
    · intro hfar
      exact absurd hfar (by omega)
  · have hlate : ¬ (w.nextTimer delay callback).Late w.wheel.slots := by
      rintro (h | ⟨h, -⟩)
      · exact hzero h
      · exact absurd h (by omega)
    have hfires := Timer.fires_of_not_late hlate
    refine ⟨rfl, ?_, ?_, ?_, ?_⟩
    · omega
    · omega
    · omega
    · intro hfar
      exact absurd hfar (by omega)

theorem inOverflow_nextTimer (hw : w.Inv pending edge) {delay : ℕ} (callback : κ)
    (hd : w.wheel.slots ≤ delay) :
    (w.nextTimer delay callback).InOverflow w.wheel.slots edge where
  far := hd
  waits := by
    have hlater : revolution w.wheel.slots (w.wheel.now + w.wheel.slots) ≤
        revolution w.wheel.slots (w.wheel.now + delay) := revolution_le (by omega)
    rw [revolution_add _ _ hw.pos] at hlater
    have := hw.edge_le
    exact Nat.lt_of_lt_of_le (by omega) hlater

theorem timers_register {p : List (Timer κ)} (hpos : 0 < w.wheel.slots) (delay : ℕ) (callback : κ) :
    ((w.register delay callback).timers p).Perm (w.nextTimer delay callback :: w.timers p) :=
  (HierarchicalTimingWheel.held_place hpos (w.nextTimer delay callback)).append_right _

theorem ids_register {p : List (Timer κ)} (hpos : 0 < w.wheel.slots)
    (h : ((w.timers p).map (·.id)).Perm (List.range w.created)) (delay : ℕ) (callback : κ) :
    (((w.register delay callback).timers p).map (·.id)).Perm
      (List.range (w.register delay callback).created) := by
  have hids := (timers_register (p := p) hpos delay callback).map (·.id)
  rw [List.map_cons] at hids
  refine (hids.trans (h.cons _)).trans ?_
  have hnext : (w.register delay callback).created = w.created + 1 := rfl
  rw [hnext, List.range_succ]
  exact (List.perm_append_singleton w.created (List.range w.created)).symm

/-- A timer that is registered is counted in. -/
theorem size_register {n : ℕ} (hpos : 0 < w.wheel.slots)
    (h : w.wheel.size = (w.wheel.held.length + n : ℕ)) (delay : ℕ) (callback : κ) :
    (w.register delay callback).wheel.size =
      ((w.register delay callback).wheel.held.length + n : ℕ) := by
  have hheld := (HierarchicalTimingWheel.held_place hpos (w.nextTimer delay callback)).length_eq
  have hsize : (w.register delay callback).wheel.size = w.wheel.size + 1 := by
    simp [World.register]
  have hcount : (w.register delay callback).wheel.held.length = w.wheel.held.length + 1 := hheld
  omega

theorem Inv.register (hw : w.Inv pending edge) (delay : ℕ) (callback : κ) :
    (w.register delay callback).Inv pending edge := by
  refine ⟨?_, ?_, ?_, ?_, ?_, ?_, ?_, ?_⟩
  · rw [slots_register]
    exact hw.pos
  · rw [slots_register, now_register]
    exact hw.edge_le
  · intro i u hu
    rw [slots_register, now_register]
    rw [bucket_register hw.pos, List.mem_append] at hu
    rcases hu with hu | hu
    · exact hw.bucket i u hu
    · split at hu
      · next hnear =>
        obtain rfl := List.mem_singleton.mp hu
        exact hnear.2 ▸ inBucket_nextTimer w callback hnear.1
      · cases hu
  · intro u hu
    rw [slots_register]
    rw [overflow_register, List.mem_append] at hu
    rcases hu with hu | hu
    · exact hw.overflow u hu
    · split at hu
      · next hfar =>
        obtain rfl := List.mem_singleton.mp hu
        exact inOverflow_nextTimer hw callback hfar
      · cases hu
  · intro t ht
    rw [slots_register, now_register]
    exact hw.due t ht
  · intro x hx
    rw [slots_register, now_register]
    exact hw.turns x hx
  · exact ids_register hw.pos hw.ids delay callback
  · exact size_register hw.pos hw.size delay callback

/-! ## Callbacks -/

/-- What a callback leaves as it is. -/
structure Frame (w v : World κ) : Prop where
  slots : v.wheel.slots = w.wheel.slots
  now : v.wheel.now = w.wheel.now
  turns : v.turns = w.turns
  calls : v.calls = w.calls

theorem frame_act (w : World κ) (a : Act κ) : Frame w (w.act a) := by
  cases a with
  | schedule delay callback =>
    exact ⟨slots_register w delay callback, now_register w delay callback, rfl, rfl⟩
  | setCancelled id cancelled => exact ⟨rfl, rfl, rfl, rfl⟩

theorem frame_acts (w : World κ) (as : List (Act κ)) : Frame w (as.foldl act w) := by
  induction as generalizing w with
  | nil => exact ⟨rfl, rfl, rfl, rfl⟩
  | cons a as ih =>
    have hrest := ih (w.act a)
    have hone := frame_act w a
    exact ⟨hrest.slots.trans hone.slots, hrest.now.trans hone.now, hrest.turns.trans hone.turns,
      hrest.calls.trans hone.calls⟩

/-- The timers that are there later include those that are there now. -/
def Grows (w : World κ) (pending : List (Timer κ)) (w' : World κ) (pending' : List (Timer κ)) : Prop :=
  ∃ new, (w'.timers pending').Perm (w.timers pending ++ new)

theorem Grows.refl (w : World κ) (pending : List (Timer κ)) : Grows w pending w pending :=
  ⟨[], by rw [List.append_nil]⟩

theorem Grows.of_perm {w' : World κ} {pending' : List (Timer κ)}
    (h : (w'.timers pending').Perm (w.timers pending)) : Grows w pending w' pending' :=
  ⟨[], by rwa [List.append_nil]⟩

theorem Grows.trans {w₁ w₂ w₃ : World κ} {p₁ p₂ p₃ : List (Timer κ)} (h₁ : Grows w₁ p₁ w₂ p₂)
    (h₂ : Grows w₂ p₂ w₃ p₃) : Grows w₁ p₁ w₃ p₃ := by
  obtain ⟨new₁, h₁⟩ := h₁
  obtain ⟨new₂, h₂⟩ := h₂
  refine ⟨new₁ ++ new₂, h₂.trans ?_⟩
  rw [← List.append_assoc]
  exact h₁.append_right new₂

theorem Grows.mem {w' : World κ} {pending' : List (Timer κ)} (h : Grows w pending w' pending')
    {t : Timer κ} (ht : t ∈ w.timers pending) : t ∈ w'.timers pending' := by
  obtain ⟨new, h⟩ := h
  exact h.mem_iff.mpr (List.mem_append_left new ht)

theorem Inv.setCancelled (hw : w.Inv pending edge) (id : ℕ) (cancelled : Bool) :
    (w.setCancelled id cancelled).Inv pending edge :=
  ⟨hw.pos, hw.edge_le, hw.bucket, hw.overflow, hw.due, hw.turns, hw.ids, hw.size⟩

theorem Inv.act (hw : w.Inv pending edge) (a : Act κ) :
    (w.act a).Inv pending edge ∧ Grows w pending (w.act a) pending := by
  cases a with
  | schedule delay callback =>
    refine ⟨hw.register delay callback, [w.nextTimer delay callback], ?_⟩
    exact (timers_register hw.pos delay callback).trans (List.perm_append_singleton _ _).symm
  | setCancelled id cancelled => exact ⟨hw.setCancelled id cancelled, Grows.refl w pending⟩

theorem Inv.acts (hw : w.Inv pending edge) (as : List (Act κ)) :
    (as.foldl World.act w).Inv pending edge ∧ Grows w pending (as.foldl World.act w) pending := by
  induction as generalizing w with
  | nil => exact ⟨hw, Grows.refl w pending⟩
  | cons a as ih =>
    obtain ⟨hone, hgrows⟩ := hw.act a
    obtain ⟨hrest, hgrows'⟩ := ih hone
    exact ⟨hrest, hgrows.trans hgrows'⟩

/-- The world in which the callback of `t` is called. -/
def logged (w : World κ) (t : Timer κ) : World κ := { w with calls := w.calls ++ [⟨w.wheel.now, t⟩] }

/-- The world after the callback of `t` has had its chance. -/
def called (env : κ → World κ → List (Act κ)) (w : World κ) (t : Timer κ) : World κ :=
  if w.cancelled t.id then w else w.call env t

def callsOf (w : World κ) (t : Timer κ) : List (Call κ) :=
  if w.cancelled t.id then [] else [⟨w.wheel.now, t⟩]

def turnOf (env : κ → World κ → List (Act κ)) (w : World κ) (t : Timer κ) : Turn κ :=
  ⟨(called env w t).wheel.now, t, w.cancelled t.id, (called env w t).wheel.size - 1⟩

theorem turn_eq (env : κ → World κ → List (Act κ)) (fired : ℕ) (w : World κ) (t : Timer κ) :
    turn env (fired, w) t = (fired + (w.callsOf t).length, { called env w t with
      wheel := { (called env w t).wheel with size := (called env w t).wheel.size - 1 }
      turns := (called env w t).turns ++ [turnOf env w t] }) := by
  cases h : w.cancelled t.id <;> simp [turn, turnOf, called, callsOf, h]

theorem called_frame (env : κ → World κ → List (Act κ)) (w : World κ) (t : Timer κ) :
    (called env w t).wheel.slots = w.wheel.slots ∧ (called env w t).wheel.now = w.wheel.now ∧
      (called env w t).turns = w.turns ∧ (called env w t).calls = w.calls ++ w.callsOf t := by
  unfold called callsOf
  split
  · exact ⟨rfl, rfl, rfl, (List.append_nil _).symm⟩
  · have hframe := frame_acts { w with calls := w.calls ++ [⟨w.wheel.now, t⟩] }
      (env t.callback { w with calls := w.calls ++ [⟨w.wheel.now, t⟩] })
    exact ⟨hframe.slots, hframe.now, hframe.turns, hframe.calls⟩

/-- The logs after the turn of `t`: the flag is the one that `t` has when its turn comes, and the
callback is called, and counted, exactly when it is not set. -/
theorem turn_log (env : κ → World κ → List (Act κ)) (fired : ℕ) (w : World κ) (t : Timer κ) :
    (turn env (fired, w) t).2.turns = w.turns ++
        [⟨w.wheel.now, t, w.cancelled t.id, (turn env (fired, w) t).2.wheel.size⟩] ∧
      (turn env (fired, w) t).2.calls = w.calls ++ w.callsOf t ∧
      (turn env (fired, w) t).1 = fired + (w.callsOf t).length := by
  obtain ⟨-, hnow, hturns, hcalls⟩ := called_frame env w t
  rw [turn_eq]
  refine ⟨?_, hcalls, rfl⟩
  show (called env w t).turns ++ [turnOf env w t] = _
  rw [hturns, turnOf, hnow]

theorem Inv.called (hw : w.Inv pending edge) (env : κ → World κ → List (Act κ)) (t : Timer κ) :
    (called env w t).Inv pending edge ∧ Grows w pending (called env w t) pending := by
  unfold World.called
  split
  · exact ⟨hw, Grows.refl w pending⟩
  · have hcalls : ({ w with calls := w.calls ++ [⟨w.wheel.now, t⟩] } : World κ).Inv pending edge :=
      ⟨hw.pos, hw.edge_le, hw.bucket, hw.overflow, hw.due, hw.turns, hw.ids, hw.size⟩
    exact hcalls.acts _

/-! ## Turns -/

theorem Inv.turn {t : Timer κ} (hw : w.Inv (t :: pending) edge) (env : κ → World κ → List (Act κ))
    (fired : ℕ) :
    (turn env (fired, w) t).2.Inv pending edge ∧
      Grows w (t :: pending) (turn env (fired, w) t).2 pending := by
  obtain ⟨hv, hgrows⟩ := hw.called env t
  rw [turn_eq]
  set v := World.called env w t with hvdef
  have htimers : (({ v with
      wheel := { v.wheel with size := v.wheel.size - 1 }
      turns := v.turns ++ [turnOf env w t] } : World κ).timers pending).Perm
      (v.timers (t :: pending)) := by
    have hlast := List.perm_append_singleton t (pending ++ v.turns.map (·.timer))
    rw [List.append_assoc] at hlast
    simp only [timers, List.map_append, List.map_cons, List.map_nil, List.cons_append]
    exact hlast.append_left v.wheel.held
  refine ⟨⟨hv.pos, hv.edge_le, hv.bucket, hv.overflow, ?_, ?_, ?_, ?_⟩,
    hgrows.trans (.of_perm htimers)⟩
  · intro u hu
    exact hv.due u (List.mem_cons_of_mem t hu)
  · intro x hx
    rcases List.mem_append.mp hx with hx | hx
    · exact hv.turns x hx
    · obtain rfl := List.mem_singleton.mp hx
      refine ⟨(hv.due t List.mem_cons_self).symm, Nat.le_refl _, ?_⟩
      have hsize := hv.size
      rw [List.length_cons] at hsize
      show 0 ≤ v.wheel.size - 1
      omega
  · exact (htimers.map (·.id)).trans hv.ids
  · have hsize := hv.size
    rw [List.length_cons] at hsize
    show v.wheel.size - 1 = (v.wheel.held.length + pending.length : ℕ)
    omega

theorem Inv.turns_foldl {due : List (Timer κ)} (hw : w.Inv due edge)
    (env : κ → World κ → List (Act κ)) (fired : ℕ) :
    (due.foldl (World.turn env) (fired, w)).2.Inv [] edge ∧
      Grows w due (due.foldl (World.turn env) (fired, w)).2 [] := by
  induction due generalizing w fired with
  | nil => exact ⟨hw, Grows.refl w []⟩
  | cons t due ih =>
    obtain ⟨hone, hgrows⟩ := hw.turn env fired
    obtain ⟨hrest, hgrows'⟩ := ih hone (World.turn env (fired, w) t).1
    exact ⟨hrest, hgrows.trans hgrows'⟩

/-! ## The beginning of a tick -/

section Drain

variable {v : HierarchicalTimingWheel κ}

/-- Once the clock is incremented, the timers of the current bucket fire. -/
theorem fires_of_mem_current (hw : w.Ok) (hv : v = { w.wheel with now := w.wheel.now + 1 })
    {t : Timer κ} (ht : t ∈ v.bucket (v.now % v.slots)) : t.fires v.slots = v.now := by
  subst hv
  exact (hw.bucket _ t ht).fires_eq

/-- All of them are due, so nothing is kept in the current bucket; the other timers stay. -/
theorem inBucket_drain (hw : w.Ok) (hv : v = { w.wheel with now := w.wheel.now + 1 }) {i : ℕ}
    {t : Timer κ} (ht : t ∈ v.drain.2.bucket i) :
    t.InBucket v.slots v.now (revolution w.wheel.slots w.wheel.now) i := by
  by_cases hi : i = v.now % v.slots
  · have hpos : 0 < v.slots := by
      rw [hv]
      exact hw.pos
    rw [hi, HierarchicalTimingWheel.bucket_drain hpos, List.mem_filter] at ht
    have hle := t.le_fires v.slots
    rw [fires_of_mem_current hw hv ht.1] at hle
    have hkeep := of_decide_eq_true ht.2
    omega
  · rw [HierarchicalTimingWheel.bucket_drain_of_ne hi] at ht
    subst hv
    exact (hw.bucket i t ht).tick hi

/-- The timers of the current bucket are taken off the wheel. -/
theorem timers_drain (hpos : 0 < w.wheel.slots) (hv : v = { w.wheel with now := w.wheel.now + 1 })
    (p : List (Timer κ)) :
    (({ w with wheel := v.drain.2 } : World κ).timers (v.drain.1 ++ p)).Perm (w.timers p) := by
  subst hv
  have hheld := HierarchicalTimingWheel.held_drain (w := { w.wheel with now := w.wheel.now + 1 }) hpos
  have hmove := (List.perm_append_comm.trans hheld).append_right (p ++ w.turns.map (·.timer))
  unfold timers
  rw [List.append_assoc] at hmove
  rw [List.append_assoc]
  exact hmove

/-- The size counts them still. -/
theorem size_drain {n : ℕ} (hpos : 0 < w.wheel.slots)
    (hv : v = { w.wheel with now := w.wheel.now + 1 })
    (h : w.wheel.size = (w.wheel.held.length + n : ℕ)) :
    v.drain.2.size = (v.drain.2.held.length + (v.drain.1.length + n) : ℕ) := by
  subst hv
  have hheld := HierarchicalTimingWheel.held_drain (w := { w.wheel with now := w.wheel.now + 1 }) hpos
  have hlen := hheld.length_eq
  rw [List.length_append] at hlen
  have hkeep : HierarchicalTimingWheel.held { w.wheel with now := w.wheel.now + 1 } = w.wheel.held :=
    rfl
  have hsize : (HierarchicalTimingWheel.drain { w.wheel with now := w.wheel.now + 1 }).2.size =
      w.wheel.size := rfl
  rw [hkeep] at hlen
  rw [hsize, h]
  omega

/-- The clock is incremented and the current bucket is drained. -/
theorem Inv.drain (hw : w.Ok) (hv : v = { w.wheel with now := w.wheel.now + 1 }) :
    ({ w with wheel := v.drain.2 } : World κ).Inv v.drain.1
        (revolution w.wheel.slots w.wheel.now) ∧
      Grows w [] ({ w with wheel := v.drain.2 } : World κ) v.drain.1 := by
  have hslots : v.slots = w.wheel.slots := by rw [hv]
  have hnow : v.now = w.wheel.now + 1 := by rw [hv]
  have hpos : 0 < v.slots := by rw [hslots]; exact hw.pos
  have htimers : (({ w with wheel := v.drain.2 } : World κ).timers v.drain.1).Perm (w.timers []) := by
    have hdrain := timers_drain hw.pos hv []
    rwa [List.append_nil] at hdrain
  refine ⟨⟨hpos, ?_, ?_, ?_, ?_, ?_, ?_, ?_⟩, .of_perm htimers⟩
  · show _ ≤ revolution v.slots v.now
    rw [hslots, hnow]
    exact revolution_le (by omega)
  · intro i t ht
    exact inBucket_drain hw hv ht
  · intro t ht
    show t.InOverflow v.slots _
    rw [hslots]
    rw [hv] at ht
    exact hw.overflow t ht
  · intro t ht
    exact fires_of_mem_current hw hv (List.mem_filter.mp ht).1
  · intro x hx
    show x.now = x.timer.fires v.slots ∧ x.now ≤ v.now ∧ 0 ≤ x.size
    obtain ⟨hx₁, hx₂, hx₃⟩ := hw.turns x hx
    rw [hslots, hnow]
    exact ⟨hx₁, by omega, hx₃⟩
  · exact (htimers.map (·.id)).trans hw.ids
  · exact size_drain hw.pos hv hw.size

end Drain

/-! ## The end of a tick -/

/-- In a tick that completes a revolution, the timers of the overflow list are not overdue. -/
theorem le_deadline_of_inOverflow {slots now : ℕ} {t : Timer κ} (hpos : 0 < slots)
    (hlast : now % slots = slots - 1) (ht : t.InOverflow slots (now / slots)) : now ≤ t.deadline := by
  have hdvd : slots ∣ now + 1 := Nat.dvd_of_mod_eq_zero ((mod_eq_last_iff hpos).mp hlast)
  have hnext : (now + 1) / slots = now / slots + 1 := Nat.succ_div_of_dvd hdvd
  have hwaits : (now + 1) / slots ≤ (t.deadline + 1) / slots := by
    rw [hnext]
    exact ht.waits
  rw [Nat.le_div_iff_mul_le hpos, Nat.div_mul_cancel hdvd] at hwaits
  omega

/-- A timer that is re-homed goes to the bucket that the wheel comes to when it fires. -/
theorem inBucket_rehomed {slots now : ℕ} {t : Timer κ} (hpos : 0 < slots)
    (hlast : now % slots = slots - 1) (ht : t.InOverflow slots (now / slots))
    (hrange : t.deadline < now + slots) :
    t.InBucket slots now (revolution slots now) (t.deadline % slots) := by
  have hfar := ht.far
  have hzero := (mod_eq_last_iff hpos).mp hlast
  have hdvd : slots ∣ now + 1 := Nat.dvd_of_mod_eq_zero hzero
  have hmul : revolution slots now * slots = now + 1 := Nat.div_mul_cancel hdvd
  have hle := le_deadline_of_inOverflow hpos hlast ht
  have hrev : revolution slots t.deadline ≤ revolution slots now := by
    have hlt : (t.deadline + 1) / slots < revolution slots now + 1 := by
      rw [Nat.div_lt_iff_lt_mul hpos, Nat.add_mul, hmul]
      omega
    exact Nat.lt_succ_iff.mp hlt
  rcases Nat.eq_or_lt_of_le hle with heq | hlt
  · -- the deadline is this very tick: the bucket was drained before
    have hfires : t.fires slots = t.deadline + slots :=
      Timer.fires_of_late (Or.inr ⟨hfar, heq ▸ hzero⟩)
    exact ⟨rfl, by omega, by omega, hrange, fun _ => hrev⟩
  · have hlate : ¬ t.Late slots := by
      rintro (h | ⟨-, h⟩)
      · omega
      · have heq := eq_of_mod_eq (h.trans hzero.symm) (by omega) (by omega)
        omega
    have hfires := Timer.fires_of_not_late hlate
    exact ⟨rfl, by omega, by omega, hrange, fun _ => hrev⟩

/-- A timer that stays in the overflow list has its deadline in a later revolution. -/
theorem inOverflow_kept {slots now edge : ℕ} {t : Timer κ} (hpos : 0 < slots)
    (ht : t.InOverflow slots edge) (hrange : now + slots ≤ t.deadline) :
    t.InOverflow slots (revolution slots now) where
  far := ht.far
  waits := by
    have hlater : revolution slots (now + slots) ≤ revolution slots t.deadline :=
      revolution_le hrange
    rw [revolution_add slots now hpos] at hlater
    omega

theorem inBucket_endTick (hw : w.Inv [] (w.wheel.now / w.wheel.slots)) {i : ℕ} {t : Timer κ}
    (ht : t ∈ w.wheel.endTick.bucket i) :
    t.InBucket w.wheel.slots w.wheel.now (revolution w.wheel.slots w.wheel.now) i := by
  by_cases hlast : w.wheel.now % w.wheel.slots = w.wheel.slots - 1
  · rw [HierarchicalTimingWheel.bucket_endTick hw.pos hlast, List.mem_append] at ht
    rcases ht with ht | ht
    · exact (hw.bucket i t ht).edge hw.edge_le
    · obtain ⟨hmem, hgo⟩ := List.mem_filter.mp ht
      obtain ⟨hrange, rfl⟩ : t.deadline < w.wheel.now + w.wheel.slots ∧
          t.deadline % w.wheel.slots = i := by simpa [HierarchicalTimingWheel.goesTo] using hgo
      exact inBucket_rehomed hw.pos hlast (hw.overflow t hmem) hrange
  · rw [HierarchicalTimingWheel.endTick_of_ne hlast] at ht
    exact (hw.bucket i t ht).edge hw.edge_le

theorem inOverflow_endTick (hw : w.Inv [] (w.wheel.now / w.wheel.slots)) {t : Timer κ}
    (ht : t ∈ w.wheel.endTick.overflow) :
    t.InOverflow w.wheel.slots (revolution w.wheel.slots w.wheel.now) := by
  by_cases hlast : w.wheel.now % w.wheel.slots = w.wheel.slots - 1
  · rw [HierarchicalTimingWheel.overflow_endTick hlast] at ht
    obtain ⟨hmem, hgo⟩ := List.mem_filter.mp ht
    have hrange : w.wheel.now + w.wheel.slots ≤ t.deadline := by
      simpa [HierarchicalTimingWheel.overflows] using hgo
    exact inOverflow_kept hw.pos (hw.overflow t hmem) hrange
  · rw [HierarchicalTimingWheel.endTick_of_ne hlast] at ht
    rw [revolution_of_ne hw.pos hlast]
    exact hw.overflow t ht

/-- The end of a tick: the overflow timers that have come into range are re-homed. -/
theorem Inv.endTick (hw : w.Inv [] (w.wheel.now / w.wheel.slots)) :
    ({ w with wheel := w.wheel.endTick } : World κ).Inv [] (revolution w.wheel.slots w.wheel.now) ∧
      Grows w [] ({ w with wheel := w.wheel.endTick } : World κ) [] := by
  obtain ⟨hslots, hnow, hsize⟩ := w.wheel.endTick_frame
  have hheld := HierarchicalTimingWheel.held_endTick hw.pos
  have htimers : (({ w with wheel := w.wheel.endTick } : World κ).timers []).Perm (w.timers []) :=
    hheld.append_right _
  refine ⟨⟨?_, ?_, ?_, ?_, ?_, ?_, ?_, ?_⟩, .of_perm htimers⟩
  · rw [hslots]
    exact hw.pos
  · exact Nat.le_of_eq (by rw [hslots, hnow])
  · intro i t ht
    rw [hslots, hnow]
    exact inBucket_endTick hw ht
  · intro t ht
    rw [hslots]
    exact inOverflow_endTick hw ht
  · intro t ht
    cases ht
  · intro x hx
    rw [hslots, hnow]
    exact hw.turns x hx
  · exact (htimers.map (·.id)).trans hw.ids
  · have hlen := hheld.length_eq
    have hold := hw.size
    rw [hsize, hold, hlen]

/-! ## Ticks and operations -/

theorem callsIn_append (turns turns' : List (Turn κ)) :
    callsIn (turns ++ turns') = callsIn turns ++ callsIn turns' := by
  simp [callsIn]

/-- What happens between `w` and `w'`: the clock does not go back, timers stay timers, and the turns
of `new` are taken, in each of which the callback runs unless the timer is cancelled. -/
structure Evolves (w : World κ) (new : List (Turn κ)) (w' : World κ) : Prop where
  slots : w'.wheel.slots = w.wheel.slots
  now_le : w.wheel.now ≤ w'.wheel.now
  grows : Grows w [] w' []
  turns : w'.turns = w.turns ++ new
  calls : w'.calls = w.calls ++ callsIn new

theorem Evolves.refl (w : World κ) : Evolves w [] w :=
  ⟨rfl, Nat.le_refl _, Grows.refl w [], (List.append_nil _).symm, (List.append_nil _).symm⟩

theorem Evolves.trans {w₁ w₂ w₃ : World κ} {new new' : List (Turn κ)} (h : Evolves w₁ new w₂)
    (h' : Evolves w₂ new' w₃) : Evolves w₁ (new ++ new') w₃ where
  slots := h'.slots.trans h.slots
  now_le := Nat.le_trans h.now_le h'.now_le
  grows := h.grows.trans h'.grows
  turns := by rw [h'.turns, h.turns, List.append_assoc]
  calls := by rw [h'.calls, h.calls, callsIn_append, List.append_assoc]

/-- What the turns of the pending timers record, and how many callbacks they run. -/
theorem turns_foldl_log (env : κ → World κ → List (Act κ)) (due : List (Timer κ)) (fired : ℕ)
    (w : World κ) :
    ∃ new : List (Turn κ), new.map (·.timer) = due ∧
      (due.foldl (turn env) (fired, w)).1 = fired + (callsIn new).length ∧
      (due.foldl (turn env) (fired, w)).2.wheel.slots = w.wheel.slots ∧
      (due.foldl (turn env) (fired, w)).2.wheel.now = w.wheel.now ∧
      (due.foldl (turn env) (fired, w)).2.turns = w.turns ++ new ∧
      (due.foldl (turn env) (fired, w)).2.calls = w.calls ++ callsIn new := by
  induction due generalizing fired w with
  | nil => exact ⟨[], rfl, rfl, rfl, rfl, (List.append_nil _).symm, (List.append_nil _).symm⟩
  | cons t due ih =>
    obtain ⟨hslots, hnow, hturns, hcalls⟩ := called_frame env w t
    have hone : callsIn [turnOf env w t] = w.callsOf t := by
      unfold callsIn callsOf turnOf
      rw [hnow]
      cases w.cancelled t.id <;> rfl
    obtain ⟨new, hdue, hfired, hs, hn, ht, hc⟩ :=
      ih (turn env (fired, w) t).1 (turn env (fired, w) t).2
    have hcons : callsIn (turnOf env w t :: new) = w.callsOf t ++ callsIn new := by
      rw [← hone, ← callsIn_append, List.singleton_append]
    rw [List.foldl_cons]
    rw [turn_eq] at hfired hs hn ht hc ⊢
    refine ⟨turnOf env w t :: new, ?_, ?_, hs.trans hslots, hn.trans hnow, ?_, ?_⟩
    · rw [List.map_cons, hdue]
      rfl
    · rw [hfired, hcons, List.length_append]
      omega
    · rw [ht]
      simp only [hturns, List.append_assoc, List.singleton_append]
    · rw [hc, hcons]
      simp only [hcalls, List.append_assoc]

/-- One round of the loop of `advance`. -/
def round (env : κ → World κ → List (Act κ)) (w : World κ) : ℕ × World κ :=
  tick env { w with wheel := { w.wheel with now := w.wheel.now + 1 } }

/-- A round in the terms of the wheel `v` that shows the next time. -/
theorem round_eq (env : κ → World κ → List (Act κ)) (w : World κ) {v : HierarchicalTimingWheel κ}
    (hv : v = { w.wheel with now := w.wheel.now + 1 }) {u : ℕ × World κ}
    (hu : u = v.drain.1.foldl (turn env) (0, { w with wheel := v.drain.2 })) :
    round env w = (u.1, { u.2 with wheel := u.2.wheel.endTick }) := by
  subst hu hv
  rfl

theorem advanceLoop_succ (env : κ → World κ → List (Act κ)) (target : ℤ) (n fired : ℕ)
    (w : World κ) :
    advanceLoop env target (n + 1) fired w =
      if w.wheel.now < target then advanceLoop env target n (fired + (round env w).1) (round env w).2
      else (fired, w) := rfl

/-- **A tick** keeps the invariant, and it reports the callbacks that it ran. -/
theorem Ok.round (hw : w.Ok) (env : κ → World κ → List (Act κ)) :
    (World.round env w).2.Ok ∧ (World.round env w).2.wheel.now = w.wheel.now + 1 ∧
      ∃ new, Evolves w new (World.round env w).2 ∧ (World.round env w).1 = (callsIn new).length := by
  set v : HierarchicalTimingWheel κ := { w.wheel with now := w.wheel.now + 1 } with hv
  obtain ⟨hdrain, hgrows⟩ := Inv.drain hw hv
  obtain ⟨hturns, hgrows'⟩ := hdrain.turns_foldl env 0
  obtain ⟨new, -, hfired, hs, hn, ht, hc⟩ :=
    turns_foldl_log env v.drain.1 0 { w with wheel := v.drain.2 }
  set u := v.drain.1.foldl (turn env) (0, { w with wheel := v.drain.2 }) with hu
  have hnow : u.2.wheel.now = w.wheel.now + 1 := hn
  have hslots : u.2.wheel.slots = w.wheel.slots := hs
  have hedge : revolution w.wheel.slots w.wheel.now = u.2.wheel.now / u.2.wheel.slots := by
    rw [hnow, hslots]
    rfl
  rw [hedge] at hturns
  obtain ⟨hend, hgrows''⟩ := hturns.endTick
  obtain ⟨hs', hn', -⟩ := u.2.wheel.endTick_frame
  rw [round_eq env w hv hu]
  refine ⟨?_, hn'.trans hnow, new, ⟨hs'.trans hslots, ?_, ?_, ht, hc⟩, ?_⟩
  · show Inv _ _ (revolution u.2.wheel.endTick.slots u.2.wheel.endTick.now)
    rw [hs', hn']
    exact hend
  · show w.wheel.now ≤ u.2.wheel.endTick.now
    rw [hn', hnow]
    omega
  · exact (hgrows.trans hgrows').trans hgrows''
  · rw [hfired, Nat.zero_add]

/-- What every round keeps, the loop of `advance` keeps. -/
theorem advanceLoop_induct {P : World κ → Prop} {env : κ → World κ → List (Act κ)}
    (hround : ∀ v, P v → P (round env v).2) (target : ℤ) (n fired : ℕ) (hw : P w) :
    P (advanceLoop env target n fired w).2 := by
  induction n generalizing w fired with
  | zero => exact hw
  | succ n ih =>
    rw [advanceLoop]
    by_cases hlt : (w.wheel.now : ℤ) < target
    · rw [if_pos hlt]
      exact ih _ (hround w hw)
    · rw [if_neg hlt]
      exact hw

/-- The loop of `advance`, with enough rounds left. -/
theorem Ok.advanceLoop (hw : w.Ok) (env : κ → World κ → List (Act κ)) (target : ℤ) (n fired : ℕ)
    (hn : (target - w.wheel.now).toNat ≤ n) :
    (World.advanceLoop env target n fired w).2.Ok ∧
      ((World.advanceLoop env target n fired w).2.wheel.now : ℤ) = max (w.wheel.now : ℤ) target ∧
      ∃ new, Evolves w new (World.advanceLoop env target n fired w).2 ∧
        (World.advanceLoop env target n fired w).1 = fired + (callsIn new).length := by
  induction n generalizing w fired with
  | zero =>
    have hmax : (w.wheel.now : ℤ) = max (w.wheel.now : ℤ) target := by omega
    exact ⟨hw, hmax, [], Evolves.refl w, rfl⟩
  | succ n ih =>
    rw [World.advanceLoop]
    by_cases hlt : (w.wheel.now : ℤ) < target
    · obtain ⟨hok, hnow, new, hev, hfired⟩ := hw.round env
      obtain ⟨hok', hnow', new', hev', hfired'⟩ :=
        ih hok (fired + (World.round env w).1) (by rw [hnow]; omega)
      rw [if_pos hlt]
      refine ⟨hok', ?_, new ++ new', hev.trans hev', ?_⟩
      · rw [hnow] at hnow'
        refine hnow'.trans ?_
        omega
      · rw [callsIn_append, List.length_append]
        refine hfired'.trans ?_
        omega
    · have hmax : (w.wheel.now : ℤ) = max (w.wheel.now : ℤ) target := by omega
      rw [if_neg hlt]
      exact ⟨hw, hmax, [], Evolves.refl w, rfl⟩

/-- **`advance`** ends at the time it was asked for, and reports the callbacks that it ran. -/
theorem Ok.advance (hw : w.Ok) (env : κ → World κ → List (Act κ)) (target : ℤ) :
    (w.advance env target).2.Ok ∧
      ((w.advance env target).2.wheel.now : ℤ) = max (w.wheel.now : ℤ) target ∧
      ∃ new, Evolves w new (w.advance env target).2 ∧
        (w.advance env target).1 = (callsIn new).length := by
  obtain ⟨hok, hnow, new, hev, hfired⟩ := hw.advanceLoop env target _ 0 (Nat.le_refl _)
  exact ⟨hok, hnow, new, hev, by rw [World.advance, hfired, Nat.zero_add]⟩

theorem Ok.register (hw : w.Ok) (delay : ℕ) (callback : κ) :
    (w.register delay callback).Ok ∧ Evolves w [] (w.register delay callback) := by
  refine ⟨?_, slots_register w delay callback, Nat.le_of_eq (now_register w delay callback).symm,
    (Inv.act hw (.schedule delay callback)).2, ?_, ?_⟩
  · unfold Ok
    rw [slots_register, now_register]
    exact Inv.register hw delay callback
  · exact (List.append_nil _).symm
  · exact (List.append_nil _).symm

theorem op_schedule_of_neg (env : κ → World κ → List (Act κ)) (w : World κ) {delay : ℤ}
    (callback : κ) (hd : delay < 0) : op env w (.schedule delay callback) = w := by
  simp only [op, schedule, if_pos hd]

theorem op_schedule_of_nonneg (env : κ → World κ → List (Act κ)) (w : World κ) {delay : ℤ}
    (callback : κ) (hd : ¬ delay < 0) :
    op env w (.schedule delay callback) = w.register delay.toNat callback := by
  simp only [op, schedule, if_neg hd]

theorem Ok.op (hw : w.Ok) (env : κ → World κ → List (Act κ)) (o : Op κ) :
    (World.op env w o).Ok ∧ ∃ new, Evolves w new (World.op env w o) := by
  cases o with
  | schedule delay callback =>
    by_cases hd : delay < 0
    · rw [op_schedule_of_neg env w callback hd]
      exact ⟨hw, [], Evolves.refl w⟩
    · rw [op_schedule_of_nonneg env w callback hd]
      obtain ⟨hok, hev⟩ := hw.register delay.toNat callback
      exact ⟨hok, [], hev⟩
  | setCancelled id cancelled =>
    exact ⟨Inv.setCancelled hw id cancelled, [], rfl, Nat.le_refl _, Grows.refl w [],
      (List.append_nil _).symm, (List.append_nil _).symm⟩
  | advance target =>
    obtain ⟨hok, -, new, hev, -⟩ := hw.advance env target
    exact ⟨hok, new, hev⟩

/-- **Every run keeps the invariant.** -/
theorem Ok.run (hw : w.Ok) (env : κ → World κ → List (Act κ)) (ops : List (Op κ)) :
    (run env w ops).Ok ∧ ∃ new, Evolves w new (run env w ops) := by
  induction ops generalizing w with
  | nil => exact ⟨hw, [], Evolves.refl w⟩
  | cons o ops ih =>
    obtain ⟨hone, new, hev⟩ := hw.op env o
    obtain ⟨hrest, new', hev'⟩ := ih hone
    exact ⟨hrest, new ++ new', hev.trans hev'⟩

theorem ok_new (slotsPerWheel levels : ℕ) (h : 0 < slotsPerWheel) :
    (new slotsPerWheel levels : World κ).Ok := by
  have hpos : 0 < slotsPerWheel * max levels 1 := Nat.mul_pos h (by omega)
  refine ⟨hpos, Nat.le_refl _, ?_, ?_, ?_, ?_, ?_, ?_⟩
  · intro i t ht
    have hempty : (World.new slotsPerWheel levels : World κ).wheel.bucket i = [] :=
      Buckets.get_replicate _ i
    rw [hempty] at ht
    cases ht
  · intro t ht
    cases ht
  · intro t ht
    cases ht
  · intro x hx
    cases hx
  · have hheld : (World.new slotsPerWheel levels : World κ).wheel.held = [] := by
      simp [World.new, HierarchicalTimingWheel.held, HierarchicalTimingWheel.withConfig]
    rw [timers, hheld]
    exact List.Perm.refl _
  · simp [World.new, HierarchicalTimingWheel.held, HierarchicalTimingWheel.withConfig]

end World

end DurableExecution
