import Mathlib.Algebra.Ring.Nat
import DurableExecution.Wheel.Reentrant
import DurableExecution.Wheel.Proofs.InvariantProofs

/-!
# Proofs: callbacks that advance the wheel

No tick is left out or taken twice, however deep the calls of `advance` are nested, so a timer that
was scheduled within one revolution leaves its bucket in the tick it would have fired in anyway. A
timer of the overflow list can be overdue by the time it is re-homed: the end of a tick may have to
wait for the callbacks of that tick, while these move the clock on. The invariant therefore says of
far timers only where they are, and that no revolution is forgotten.
-/

namespace DurableExecution

variable {κ : Type}

/-! ## The end of a tick -/

namespace HierarchicalTimingWheel

variable {w : HierarchicalTimingWheel κ} {slot : ℕ}

theorem endTickAt_of_ne (h : slot ≠ w.slots - 1) : w.endTickAt slot = w := by
  rw [endTickAt, if_neg (fun hc => h hc.1)]

theorem endTickAt_of_eq (h : slot = w.slots - 1) :
    w.endTickAt slot = ({ w with overflow := [] } : HierarchicalTimingWheel κ).placeAll w.overflow := by
  rw [endTickAt]
  by_cases ho : w.overflow = []
  · rw [if_neg (fun hc => hc.2 ho), ho]
    cases w
    subst ho
    rfl
  · rw [if_pos ⟨h, ho⟩]
    rfl

theorem endTickAt_frame (w : HierarchicalTimingWheel κ) (slot : ℕ) :
    (w.endTickAt slot).slots = w.slots ∧ (w.endTickAt slot).now = w.now ∧
      (w.endTickAt slot).size = w.size := by
  by_cases h : slot = w.slots - 1
  · rw [endTickAt_of_eq h]
    simp
  · rw [endTickAt_of_ne h]
    exact ⟨rfl, rfl, rfl⟩

theorem held_endTickAt (hpos : 0 < w.slots) (slot : ℕ) : (w.endTickAt slot).held.Perm w.held := by
  by_cases h : slot = w.slots - 1
  · rw [endTickAt_of_eq h]
    have hempty : ({ w with overflow := [] } : HierarchicalTimingWheel κ).held = w.buckets.flatten :=
      List.append_nil _
    have hall := held_placeAll (w := { w with overflow := [] }) hpos w.overflow
    rw [hempty] at hall
    exact hall.trans List.perm_append_comm
  · rw [endTickAt_of_ne h]

/-- A timer that is in a bucket at the end of a tick was there before, or is re-homed. -/
theorem mem_bucket_endTickAt (hpos : 0 < w.slots) {i : ℕ} {t : Timer κ}
    (ht : t ∈ (w.endTickAt slot).bucket i) :
    t ∈ w.bucket i ∨ t ∈ w.overflow ∧ t.deadline < w.now + w.slots ∧ t.deadline % w.slots = i := by
  by_cases h : slot = w.slots - 1
  · rw [endTickAt_of_eq h, bucket_placeAll (w := { w with overflow := [] }) hpos, List.mem_append] at ht
    rcases ht with ht | ht
    · exact Or.inl ht
    · obtain ⟨hmem, hgo⟩ := List.mem_filter.mp ht
      exact Or.inr ⟨hmem, by simpa [goesTo] using hgo⟩
  · rw [endTickAt_of_ne h] at ht
    exact Or.inl ht

/-- A timer that stays in the overflow list, and where it is when a revolution ends. -/
theorem mem_overflow_endTickAt {t : Timer κ} (ht : t ∈ (w.endTickAt slot).overflow) :
    t ∈ w.overflow ∧ (slot = w.slots - 1 → w.now + w.slots ≤ t.deadline) := by
  by_cases h : slot = w.slots - 1
  · rw [endTickAt_of_eq h, overflow_placeAll, List.nil_append] at ht
    obtain ⟨hmem, hgo⟩ := List.mem_filter.mp ht
    exact ⟨hmem, fun _ => by simpa [overflows] using hgo⟩
  · rw [endTickAt_of_ne h] at ht
    exact ⟨ht, fun h' => absurd h' h⟩

end HierarchicalTimingWheel

/-! ## Timers in buckets -/

namespace Timer

variable {slots now i : ℕ} {t : Timer κ}

/-- What holds of a timer in bucket `i` when the clock shows `now`. A far timer may be overdue. -/
structure Placed (slots now i : ℕ) (t : Timer κ) : Prop where
  slot : t.deadline % slots = i
  inRange : t.deadline < now + slots
  near : t.delay < slots → now < t.fires slots ∧ t.fires slots ≤ now + slots

/-- A timer in a bucket stays so while the clock moves on by one tick, unless it is that bucket's. -/
theorem Placed.tick (h : t.Placed slots now i) (hi : i ≠ (now + 1) % slots) :
    t.Placed slots (now + 1) i where
  slot := h.slot
  inRange := by
    have := h.inRange
    omega
  near := by
    intro hd
    obtain ⟨hafter, hsoon⟩ := h.near hd
    have hne : t.fires slots ≠ now + 1 := by
      intro heq
      exact hi (by rw [← heq, fires_mod, h.slot])
    omega

/-- The timers in the current bucket are due, and the near ones fire in this tick. -/
theorem Placed.due (h : t.Placed slots now ((now + 1) % slots)) :
    t.deadline ≤ now + 1 ∧ (t.delay < slots → t.fires slots = now + 1) := by
  constructor
  · by_contra hlt
    have hrange := h.inRange
    have := eq_of_mod_eq h.slot (by omega) (by omega)
    omega
  · intro hd
    obtain ⟨hafter, hsoon⟩ := h.near hd
    have hmod : t.fires slots % slots = (now + 1) % slots := by rw [fires_mod, h.slot]
    exact eq_of_mod_eq hmod (by omega) (by omega)

end Timer

theorem World.placed_nextTimer (w : World κ) {delay : ℕ} (callback : κ) (hd : delay < w.wheel.slots) :
    (w.nextTimer delay callback).Placed w.wheel.slots w.wheel.now
      ((w.wheel.now + delay) % w.wheel.slots) := by
  have hin : (w.nextTimer delay callback).InBucket w.wheel.slots w.wheel.now 0
      ((w.wheel.now + delay) % w.wheel.slots) := inBucket_nextTimer w callback hd
  exact ⟨hin.slot, hin.inRange, fun _ => ⟨hin.after, hin.soon⟩⟩

/-! ## The invariant -/

namespace Reentrant

open System

/-- A tick that completes a revolution is in progress. -/
def AtEdge (s : Reentrant κ) : Prop :=
  ∃ a ∈ s.advances, a.place.slot = some (s.world.wheel.slots - 1)

/-- Where the timers are. A revolution whose end is still to come keeps its overflow list. -/
structure Placing (s : Reentrant κ) : Prop where
  pos : 0 < s.world.wheel.slots
  bucket : ∀ i, ∀ t ∈ s.world.wheel.bucket i, t.Placed s.world.wheel.slots s.world.wheel.now i
  overflow : ∀ t ∈ s.world.wheel.overflow, s.world.wheel.slots ≤ t.delay
  edge : s.raisers = [] → s.AtEdge ∨ ∀ t ∈ s.world.wheel.overflow,
    revolution s.world.wheel.slots s.world.wheel.now < revolution s.world.wheel.slots t.deadline
  taken : ∀ x ∈ s.taken, x.2.deadline ≤ x.1 ∧ x.1 ≤ s.world.wheel.now ∧
    (x.2.delay < s.world.wheel.slots → x.1 = x.2.fires s.world.wheel.slots)

/-- No timer is lost or doubled, the size counts all that are not counted out, and the calls of
`advance` report the callbacks that they ran. -/
structure Accounts (s : Reentrant κ) : Prop where
  gone : (s.taken.map (·.2)).Perm (s.pending ++ s.lost ++ s.world.turns.map (·.timer))
  ids : ((s.world.timers (s.pending ++ s.lost)).map (·.id)).Perm (List.range s.world.created)
  size : s.world.wheel.size = (s.world.wheel.held.length + (s.pending ++ s.lost).length : ℕ)
  calls : (s.world.calls.map (·.timer)).Perm
    (s.running ++ s.raisers ++ (s.world.turns.filter fun x => !x.cancelled).map (·.timer))
  early : ∀ c ∈ s.world.calls, c.timer.deadline ≤ c.now
  fired : s.raisers = [] →
    s.world.calls.length = s.returned.sum + (s.advances.map (·.fired)).sum + s.running.length

variable {s s' : Reentrant κ}

/-- What the code of the wheel does between a drain and the end of the tick leaves the timers on the
wheel where they are. -/
theorem Placing.congr (h : s.Placing) (hslots : s'.world.wheel.slots = s.world.wheel.slots)
    (hnow : s'.world.wheel.now = s.world.wheel.now)
    (hbuckets : s'.world.wheel.buckets = s.world.wheel.buckets)
    (hoverflow : s'.world.wheel.overflow = s.world.wheel.overflow) (htaken : s'.taken = s.taken)
    (hraisers : s'.raisers = [] → s.raisers = []) (hedge : s'.raisers = [] → s.AtEdge → s'.AtEdge) :
    s'.Placing := by
  refine ⟨?_, ?_, ?_, ?_, ?_⟩
  · rw [hslots]
    exact h.pos
  · intro i t ht
    rw [hslots, hnow]
    refine h.bucket i t ?_
    unfold HierarchicalTimingWheel.bucket at ht ⊢
    rwa [hbuckets] at ht
  · intro t ht
    rw [hslots]
    exact h.overflow t (hoverflow ▸ ht)
  · intro hr
    rw [hslots, hnow, hoverflow]
    exact (h.edge (hraisers hr)).imp_left (hedge hr)
  · intro x hx
    rw [hslots, hnow]
    exact h.taken x (htaken ▸ hx)

/-! ## Callbacks and other code -/

theorem Placing.act (h : s.Placing) (a : Act κ) : ({ s with world := s.world.act a }).Placing := by
  cases a with
  | setCancelled id cancelled => exact h.congr rfl rfl rfl rfl rfl (fun hr => hr) fun _ he => he
  | schedule delay callback =>
    have hslots := World.slots_register s.world delay callback
    have hnow := World.now_register s.world delay callback
    refine ⟨?_, ?_, ?_, ?_, ?_⟩
    · exact hslots ▸ h.pos
    · intro i t ht
      show t.Placed (s.world.register delay callback).wheel.slots
        (s.world.register delay callback).wheel.now i
      rw [hslots, hnow]
      have ht : t ∈ (s.world.register delay callback).wheel.bucket i := ht
      rw [World.bucket_register h.pos, List.mem_append] at ht
      rcases ht with ht | ht
      · exact h.bucket i t ht
      · split at ht
        · next hnear =>
          obtain rfl := List.mem_singleton.mp ht
          exact hnear.2 ▸ s.world.placed_nextTimer callback hnear.1
        · cases ht
    · intro t ht
      show (s.world.register delay callback).wheel.slots ≤ t.delay
      rw [hslots]
      have ht : t ∈ (s.world.register delay callback).wheel.overflow := ht
      rw [World.overflow_register, List.mem_append] at ht
      rcases ht with ht | ht
      · exact h.overflow t ht
      · split at ht
        · next hfar =>
          obtain rfl := List.mem_singleton.mp ht
          exact hfar
        · cases ht
    · intro hr
      rcases h.edge hr with ⟨a, ha, hslot⟩ | hlater
      · exact Or.inl ⟨a, ha, hslot.trans (by rw [← hslots]; rfl)⟩
      · right
        intro t ht
        show revolution (s.world.register delay callback).wheel.slots
          (s.world.register delay callback).wheel.now < _
        have ht : t ∈ (s.world.register delay callback).wheel.overflow := ht
        rw [World.overflow_register, List.mem_append] at ht
        show _ < revolution (s.world.register delay callback).wheel.slots _
        rw [hslots, hnow]
        rcases ht with ht | ht
        · exact hlater t ht
        · split at ht
          · next hfar =>
            obtain rfl := List.mem_singleton.mp ht
            have hrev : revolution s.world.wheel.slots (s.world.wheel.now + s.world.wheel.slots) ≤
                revolution s.world.wheel.slots (s.world.wheel.now + delay) :=
              revolution_le (Nat.add_le_add_left hfar _)
            rw [revolution_add _ _ h.pos] at hrev
            exact hrev
          · cases ht
    · intro x hx
      show _ ∧ _ ≤ (s.world.register delay callback).wheel.now ∧
        (_ < (s.world.register delay callback).wheel.slots →
          _ = x.2.fires (s.world.register delay callback).wheel.slots)
      rw [hslots, hnow]
      exact h.taken x hx

theorem Accounts.act (hpos : 0 < s.world.wheel.slots) (h : s.Accounts) (a : Act κ) :
    ({ s with world := s.world.act a }).Accounts := by
  cases a with
  | setCancelled id cancelled => exact ⟨h.gone, h.ids, h.size, h.calls, h.early, h.fired⟩
  | schedule delay callback =>
    exact ⟨h.gone, World.ids_register hpos h.ids delay callback,
      World.size_register hpos h.size delay callback, h.calls, h.early, h.fired⟩

/-! ## The beginning of a tick -/

section Drain

variable {a : Advance κ} {outer : List (Advance κ)} {v : HierarchicalTimingWheel κ}

/-- The clock is incremented and the bucket of the new tick is drained. -/
def drained (s : Reentrant κ) (a : Advance κ) (outer : List (Advance κ))
    (v : HierarchicalTimingWheel κ) : Reentrant κ :=
  { s with
    world := { s.world with wheel := v.drain.2 }
    advances := { a with place := .tick (v.now % v.slots) v.drain.1 } :: outer
    taken := s.taken ++ v.drain.1.map fun t => (v.now, t) }

theorem goOn_of_lt (ha : a.place = .test) (hlt : (s.world.wheel.now : ℤ) < a.target)
    (hv : v = { s.world.wheel with now := s.world.wheel.now + 1 }) :
    s.goOn a outer = s.drained a outer v := by
  subst hv
  simp only [goOn, ha, if_pos hlt]
  rfl

theorem Placing.drained (h : s.Placing) (hs : s.advances = a :: outer) (ha : a.place = .test)
    (hv : v = { s.world.wheel with now := s.world.wheel.now + 1 }) : (s.drained a outer v).Placing := by
  have hslots : v.slots = s.world.wheel.slots := by rw [hv]
  have hnow : v.now = s.world.wheel.now + 1 := by rw [hv]
  have hbucket : ∀ i, v.bucket i = s.world.wheel.bucket i := fun i => by rw [hv]; rfl
  have hpos : 0 < v.slots := hslots ▸ h.pos
  have hcurrent : ∀ t ∈ v.bucket (v.now % v.slots),
      t.deadline ≤ v.now ∧ (t.delay < v.slots → t.fires v.slots = v.now) := by
    intro t ht
    have hplaced := h.bucket _ t (hbucket _ ▸ ht)
    rw [hnow, hslots] at hplaced ⊢
    exact hplaced.due
  refine ⟨hpos, ?_, ?_, ?_, ?_⟩
  · intro i t ht
    have ht : t ∈ v.drain.2.bucket i := ht
    show t.Placed v.slots v.now i
    by_cases hi : i = v.now % v.slots
    · rw [hi, HierarchicalTimingWheel.bucket_drain hpos, List.mem_filter, decide_eq_true_eq] at ht
      exact absurd (hcurrent t ht.1).1 (Nat.not_le.mpr ht.2)
    · rw [HierarchicalTimingWheel.bucket_drain_of_ne hi, hbucket] at ht
      rw [hnow, hslots] at hi ⊢
      exact (h.bucket i t ht).tick hi
  · intro t ht
    show v.slots ≤ t.delay
    rw [hv] at ht
    rw [hslots]
    exact h.overflow t ht
  · intro hr
    by_cases hlast : v.now % v.slots = v.slots - 1
    · exact Or.inl ⟨_, List.mem_cons_self, congrArg some hlast⟩
    · rcases h.edge hr with ⟨b, hb, hslot⟩ | hlater
      · -- the tick that is at the end of a revolution is one of an outer call
        left
        rw [hs] at hb
        rcases List.mem_cons.mp hb with rfl | hb
        · rw [ha] at hslot
          cases hslot
        · exact ⟨b, List.mem_cons_of_mem _ hb, hslot.trans (by rw [← hslots]; rfl)⟩
      · right
        intro t ht
        show revolution v.slots v.now < revolution v.slots t.deadline
        have ht : t ∈ s.world.wheel.overflow := by
          rw [hv] at ht
          exact ht
        rw [revolution_of_ne hpos hlast, hnow, hslots]
        exact hlater t ht
  · intro x hx
    show x.2.deadline ≤ x.1 ∧ x.1 ≤ v.now ∧ (x.2.delay < v.slots → x.1 = x.2.fires v.slots)
    rcases List.mem_append.mp hx with hx | hx
    · obtain ⟨hdue, hle, hnear⟩ := h.taken x hx
      rw [hnow, hslots]
      exact ⟨hdue, by omega, hnear⟩
    · obtain ⟨t, ht, rfl⟩ := List.mem_map.mp hx
      obtain ⟨hdue, hnear⟩ := hcurrent t (List.mem_filter.mp ht).1
      exact ⟨hdue, Nat.le_refl _, fun hd => (hnear hd).symm⟩

theorem Accounts.drained (hpos : 0 < s.world.wheel.slots) (h : s.Accounts)
    (hs : s.advances = a :: outer) (ha : a.place = .test)
    (hv : v = { s.world.wheel with now := s.world.wheel.now + 1 }) : (s.drained a outer v).Accounts := by
  have hpending : (s.drained a outer v).pending = v.drain.1 ++ s.pending := by
    simp [Reentrant.drained, pending, hs, ha, Place.pending]
  have hrunning : (s.drained a outer v).running = s.running := by
    simp [Reentrant.drained, running, hs, ha, Place.running]
  have hlost : (s.drained a outer v).lost = s.lost := rfl
  refine ⟨?_, ?_, ?_, ?_, h.early, ?_⟩
  · have hmap : ((s.drained a outer v).taken.map (·.2)) = s.taken.map (·.2) ++ v.drain.1 := by
      simp [Reentrant.drained, Function.comp_def]
    rw [hmap, hpending, hlost, List.append_assoc, List.append_assoc]
    have hgone := h.gone
    rw [List.append_assoc] at hgone
    exact List.perm_append_comm.trans (hgone.append_left v.drain.1)
  · have hdrain := World.timers_drain hpos hv (s.pending ++ s.lost)
    rw [hpending, hlost, List.append_assoc]
    exact (hdrain.map (·.id)).trans h.ids
  · have hsize := World.size_drain hpos hv h.size
    rw [hpending, hlost, List.append_assoc, List.length_append]
    exact hsize
  · rw [hrunning]
    exact h.calls
  · intro hr
    rw [hrunning]
    have hfired := h.fired hr
    rw [hs, List.map_cons] at hfired
    exact hfired

end Drain

/-! ## The end of a tick -/

section EndTick

variable {a : Advance κ} {outer : List (Advance κ)} {slot : ℕ}

def ended (s : Reentrant κ) (a : Advance κ) (outer : List (Advance κ)) (slot : ℕ) : Reentrant κ :=
  { s with
    world := { s.world with wheel := s.world.wheel.endTickAt slot }
    advances := { a with place := .test } :: outer }

theorem Placing.ended (h : s.Placing) (hs : s.advances = a :: outer) (ha : a.place = .tick slot []) :
    (s.ended a outer slot).Placing := by
  obtain ⟨hslots, hnow, -⟩ := s.world.wheel.endTickAt_frame slot
  refine ⟨?_, ?_, ?_, ?_, ?_⟩
  · show 0 < (s.world.wheel.endTickAt slot).slots
    rw [hslots]
    exact h.pos
  · intro i t ht
    show t.Placed (s.world.wheel.endTickAt slot).slots (s.world.wheel.endTickAt slot).now i
    rw [hslots, hnow]
    rcases HierarchicalTimingWheel.mem_bucket_endTickAt h.pos ht with ht | ⟨ht, hrange, hslot⟩
    · exact h.bucket i t ht
    · exact ⟨hslot, hrange, fun hd => absurd hd (Nat.not_lt.mpr (h.overflow t ht))⟩
  · intro t ht
    show (s.world.wheel.endTickAt slot).slots ≤ t.delay
    rw [hslots]
    exact h.overflow t (HierarchicalTimingWheel.mem_overflow_endTickAt ht).1
  · intro hr
    by_cases hlast : slot = s.world.wheel.slots - 1
    · -- the list has just been re-homed
      right
      intro t ht
      show revolution (s.world.wheel.endTickAt slot).slots (s.world.wheel.endTickAt slot).now <
        revolution (s.world.wheel.endTickAt slot).slots t.deadline
      rw [hslots, hnow]
      have hrange := (HierarchicalTimingWheel.mem_overflow_endTickAt ht).2 hlast
      have hrev : revolution s.world.wheel.slots (s.world.wheel.now + s.world.wheel.slots) ≤
          revolution s.world.wheel.slots t.deadline := revolution_le hrange
      rw [revolution_add _ _ h.pos] at hrev
      exact hrev
    · rcases h.edge hr with ⟨b, hb, hslot⟩ | hlater
      · left
        rw [hs] at hb
        rcases List.mem_cons.mp hb with rfl | hb
        · rw [ha] at hslot
          exact absurd (Option.some.inj hslot) hlast
        · exact ⟨b, List.mem_cons_of_mem _ hb, hslot.trans (by rw [← hslots]; rfl)⟩
      · right
        intro t ht
        show revolution (s.world.wheel.endTickAt slot).slots (s.world.wheel.endTickAt slot).now <
          revolution (s.world.wheel.endTickAt slot).slots t.deadline
        rw [hslots, hnow]
        exact hlater t (HierarchicalTimingWheel.mem_overflow_endTickAt ht).1
  · intro x hx
    show _ ∧ _ ≤ (s.world.wheel.endTickAt slot).now ∧
      (_ < (s.world.wheel.endTickAt slot).slots → _ = x.2.fires (s.world.wheel.endTickAt slot).slots)
    rw [hslots, hnow]
    exact h.taken x hx

theorem Accounts.ended (hpos : 0 < s.world.wheel.slots) (h : s.Accounts)
    (hs : s.advances = a :: outer) (ha : a.place = .tick slot []) : (s.ended a outer slot).Accounts := by
  obtain ⟨-, -, hsize⟩ := s.world.wheel.endTickAt_frame slot
  have hheld := HierarchicalTimingWheel.held_endTickAt hpos slot
  have hpending : (s.ended a outer slot).pending = s.pending := by
    simp [Reentrant.ended, pending, hs, ha, Place.pending]
  have hrunning : (s.ended a outer slot).running = s.running := by
    simp [Reentrant.ended, running, hs, ha, Place.running]
  refine ⟨?_, ?_, ?_, ?_, h.early, ?_⟩
  · rw [hpending]
    exact h.gone
  · rw [hpending]
    exact ((hheld.append_right _).map (·.id)).trans h.ids
  · rw [hpending]
    show (s.world.wheel.endTickAt slot).size = ((s.world.wheel.endTickAt slot).held.length + _ : ℕ)
    rw [hsize, hheld.length_eq]
    exact h.size
  · rw [hrunning]
    exact h.calls
  · intro hr
    rw [hrunning]
    have hfired := h.fired hr
    rw [hs, List.map_cons] at hfired
    exact hfired

end EndTick

/-! ## Turns -/

section Turns

variable {a : Advance κ} {outer : List (Advance κ)} {slot : ℕ} {t : Timer κ} {due : List (Timer κ)}

/-- The innermost `advance` is at another place of the same tick. -/
theorem AtEdge.replace (hs : s.advances = a :: outer) {b : Advance κ} {w : World κ}
    (hslots : w.wheel.slots = s.world.wheel.slots) (hb : b.place.slot = a.place.slot)
    (h : s.AtEdge) : AtEdge { s with world := w, advances := b :: outer } := by
  obtain ⟨c, hc, hslot⟩ := h
  rw [hs] at hc
  rw [← hslots] at hslot
  rcases List.mem_cons.mp hc with rfl | hc
  · exact ⟨b, List.mem_cons_self, hb.trans hslot⟩
  · exact ⟨c, List.mem_cons_of_mem _ hc, hslot⟩

/-- The turn of a timer ends. -/
theorem Accounts.countOut (h : s.Accounts) {cancelled : Bool} {b : Advance κ}
    (hs : s.advances = a :: outer) (hpending : a.place.pending = t :: b.place.pending)
    (hrunning : a.place.running = (if cancelled then [] else [t]) ++ b.place.running)
    (hfired : b.fired = a.fired + if cancelled then 0 else 1) :
    Accounts { s with world := Raising.countOut s.world t cancelled, advances := b :: outer } := by
  set s' : Reentrant κ :=
    { s with world := Raising.countOut s.world t cancelled, advances := b :: outer } with hs'
  have hold : s.pending = t :: s'.pending := by
    simp [hs', pending, hs, hpending]
  have hran : s.running = (if cancelled then [] else [t]) ++ s'.running := by
    simp [hs', running, hs, hrunning, List.append_assoc]
  have hlost : s'.lost = s.lost := rfl
  have hmove : ∀ p g : List (Timer κ), (p ++ (g ++ [t])).Perm (t :: p ++ g) := by
    intro p g
    rw [← List.append_assoc]
    exact List.perm_append_singleton t (p ++ g)
  have hturns : s'.world.turns.map (·.timer) = s.world.turns.map (·.timer) ++ [t] := by
    simp [hs', Raising.countOut]
  refine ⟨?_, ?_, ?_, ?_, h.early, ?_⟩
  · rw [hturns, hlost]
    have hgone := h.gone
    rw [hold] at hgone
    exact hgone.trans (hmove _ _).symm
  · have hids := h.ids
    rw [hold] at hids
    refine List.Perm.trans (List.Perm.map _ ?_) hids
    show (s.world.wheel.held ++ (s'.pending ++ s'.lost ++ s'.world.turns.map (·.timer))).Perm
      (s.world.wheel.held ++ (t :: s'.pending ++ s.lost ++ s.world.turns.map (·.timer)))
    rw [hturns, hlost]
    exact (hmove _ _).append_left _
  · have hsize := h.size
    rw [hold, List.cons_append, List.length_cons] at hsize
    show s.world.wheel.size - 1 = (s.world.wheel.held.length + (s'.pending ++ s'.lost).length : ℕ)
    rw [hlost]
    omega
  · have hcalls := h.calls
    rw [hran] at hcalls
    cases cancelled with
    | true => simpa [hs', Raising.countOut] using hcalls
    | false =>
      have hrest := hmove (s'.running ++ s'.raisers)
        ((s.world.turns.filter fun x => !x.cancelled).map (·.timer))
      simpa [hs', Raising.countOut] using hcalls.trans hrest.symm
  · intro hr
    have hcount := h.fired hr
    rw [hran, hs, List.map_cons, List.sum_cons, List.length_append] at hcount
    show s.world.calls.length = s.returned.sum + ((b :: outer).map (·.fired)).sum + s'.running.length
    rw [List.map_cons, List.sum_cons, hfired]
    cases cancelled with
    | true =>
      rw [if_pos rfl] at hcount ⊢
      rw [List.length_nil] at hcount
      omega
    | false =>
      rw [if_neg Bool.false_ne_true] at hcount ⊢
      rw [List.length_singleton] at hcount
      omega

/-- A callback is called. Its timer was taken off the wheel in an earlier tick or in this one. -/
theorem Accounts.call (hp : s.Placing) (h : s.Accounts) (hs : s.advances = a :: outer)
    (ha : a.place = .tick slot (t :: due)) :
    Accounts { s with
      world := { s.world with calls := s.world.calls ++ [⟨s.world.wheel.now, t⟩] }
      advances := { a with place := .callback slot t due } :: outer } := by
  set s' : Reentrant κ := { s with
    world := { s.world with calls := s.world.calls ++ [⟨s.world.wheel.now, t⟩] }
    advances := { a with place := .callback slot t due } :: outer } with hs'
  have hpending : s'.pending = s.pending := by
    simp [hs', pending, hs, ha, Place.pending]
  have hrunning : s'.running = t :: s.running := by
    simp [hs', running, hs, ha, Place.running]
  refine ⟨?_, ?_, ?_, ?_, ?_, ?_⟩
  · rw [hpending]
    exact h.gone
  · rw [hpending]
    exact h.ids
  · rw [hpending]
    exact h.size
  · have hlast := (List.perm_append_singleton t (s.world.calls.map (·.timer))).trans (h.calls.cons t)
    rw [hrunning]
    simpa [hs'] using hlast
  · intro c hc
    rcases List.mem_append.mp hc with hc | hc
    · exact h.early c hc
    · obtain rfl := List.mem_singleton.mp hc
      have hmem : t ∈ s.taken.map (·.2) := by
        refine h.gone.mem_iff.mpr (List.mem_append_left _ (List.mem_append_left _ ?_))
        simp [pending, hs, ha, Place.pending]
      obtain ⟨x, hx, rfl⟩ := List.mem_map.mp hmem
      obtain ⟨hdue, hle, -⟩ := hp.taken x hx
      exact Nat.le_trans hdue hle
  · intro hr
    have hcount := h.fired hr
    rw [hs, List.map_cons, List.sum_cons] at hcount
    show (s.world.calls ++ [_]).length = s.returned.sum + (a.fired :: outer.map (·.fired)).sum +
      s'.running.length
    rw [hrunning, List.length_append, List.sum_cons]
    simp only [List.length_cons, List.length_nil]
    omega

/-- A callback raises. -/
theorem Accounts.raise (h : s.Accounts) (hs : s.advances = a :: outer)
    (ha : a.place = .callback slot t due) :
    Accounts { s with
      advances := outer
      raisers := s.raisers ++ [t]
      dropped := s.dropped ++ due } := by
  set s' : Reentrant κ := { s with
    advances := outer
    raisers := s.raisers ++ [t]
    dropped := s.dropped ++ due } with hs'
  have hold : s.pending = t :: due ++ s'.pending := by
    simp [hs', pending, hs, ha, Place.pending]
  have hran : s.running = t :: s'.running := by
    simp [hs', running, hs, ha, Place.running]
  have hlost : s'.lost = s.raisers ++ [t] ++ (s.dropped ++ due) := rfl
  -- what was pending is lost now
  have hmove : (s'.pending ++ s'.lost).Perm (s.pending ++ s.lost) := by
    classical
    rw [List.perm_iff_count]
    intro u
    rw [hlost, hold]
    simp only [lost, List.count_append, List.count_cons, List.count_nil]
    omega
  refine ⟨?_, ?_, ?_, ?_, h.early, ?_⟩
  · exact h.gone.trans (hmove.symm.append_right _)
  · exact (((hmove.append_right _).append_left _).map _).trans h.ids
  · rw [hmove.length_eq]
    exact h.size
  · have hcalls := h.calls
    rw [hran] at hcalls
    refine hcalls.trans (List.Perm.append_right _ ?_)
    show (t :: s'.running ++ s.raisers).Perm (s'.running ++ (s.raisers ++ [t]))
    rw [← List.append_assoc]
    exact (List.perm_append_singleton t (s'.running ++ s.raisers)).symm
  · intro hr
    exact absurd hr (by simp [hs'])

end Turns

/-! ## Steps and runs -/

section Steps

variable {a : Advance κ} {outer : List (Advance κ)}

/-- `advance` is called. -/
theorem Accounts.begin (h : s.Accounts) (target : ℤ) :
    Accounts { s with advances := ⟨target, 0, .test⟩ :: s.advances } := by
  refine ⟨h.gone, h.ids, h.size, h.calls, h.early, ?_⟩
  intro hr
  have hcount := h.fired hr
  show _ = s.returned.sum + (0 :: s.advances.map (·.fired)).sum + s.running.length
  rw [List.sum_cons, Nat.zero_add]
  exact hcount

/-- `advance` returns. -/
theorem Accounts.return (h : s.Accounts) (hs : s.advances = a :: outer) (ha : a.place = .test) :
    Accounts { s with advances := outer, returned := s.returned ++ [a.fired] } := by
  set s' : Reentrant κ := { s with advances := outer, returned := s.returned ++ [a.fired] } with hs'
  have hpending : s'.pending = s.pending := by
    simp [hs', pending, hs, ha, Place.pending]
  have hrunning : s'.running = s.running := by
    simp [hs', running, hs, ha, Place.running]
  refine ⟨?_, ?_, ?_, ?_, h.early, ?_⟩
  · rw [hpending]
    exact h.gone
  · rw [hpending]
    exact h.ids
  · rw [hpending]
    exact h.size
  · rw [hrunning]
    exact h.calls
  · intro hr
    have hcount := h.fired hr
    rw [hs, List.map_cons, List.sum_cons] at hcount
    show _ = (s.returned ++ [a.fired]).sum + (outer.map (·.fired)).sum + s'.running.length
    rw [hrunning, List.sum_append, List.sum_singleton, hcount]
    omega

/-- An `advance` that is at no tick does not matter to the revolutions. -/
theorem Placing.return (h : s.Placing) (hs : s.advances = a :: outer) (ha : a.place = .test) :
    Placing { s with advances := outer, returned := s.returned ++ [a.fired] } := by
  refine h.congr rfl rfl rfl rfl rfl (fun hr => hr) ?_
  rintro - ⟨b, hb, hslot⟩
  rw [hs] at hb
  rcases List.mem_cons.mp hb with rfl | hb
  · rw [ha] at hslot
    cases hslot
  · exact ⟨b, hb, hslot⟩

/-- What the machine keeps. -/
structure Inv (s : Reentrant κ) : Prop where
  placing : s.Placing
  accounts : s.Accounts

theorem Inv.goOn (h : s.Inv) (hs : s.advances = a :: outer) : (s.goOn a outer).Inv := by
  obtain ⟨hp, hacc⟩ := h
  cases ha : a.place with
  | test =>
    by_cases hlt : (s.world.wheel.now : ℤ) < a.target
    · rw [goOn_of_lt ha hlt rfl]
      exact ⟨hp.drained hs ha rfl, hacc.drained hp.pos hs ha rfl⟩
    · simp only [Reentrant.goOn, ha, if_neg hlt]
      exact ⟨hp.return hs ha, hacc.return hs ha⟩
  | tick slot due =>
    cases due with
    | nil =>
      simp only [Reentrant.goOn, ha]
      exact ⟨hp.ended hs ha, hacc.ended hp.pos hs ha⟩
    | cons t due =>
      by_cases hc : s.world.cancelled t.id = true
      · simp only [Reentrant.goOn, ha, if_pos hc]
        refine ⟨?_, hacc.countOut hs ?_ ?_ rfl⟩
        · exact hp.congr rfl rfl rfl rfl rfl (fun hr => hr) fun _ =>
            AtEdge.replace hs rfl (by rw [ha]; rfl)
        · rw [ha]
          rfl
        · rw [ha]
          rfl
      · simp only [Reentrant.goOn, ha, if_neg hc]
        refine ⟨?_, hacc.call hp hs ha⟩
        exact hp.congr rfl rfl rfl rfl rfl (fun hr => hr) fun _ =>
          AtEdge.replace hs rfl (by rw [ha]; rfl)
  | callback slot t due =>
    simp only [Reentrant.goOn, ha]
    refine ⟨?_, hacc.countOut hs ?_ ?_ rfl⟩
    · exact hp.congr rfl rfl rfl rfl rfl (fun hr => hr) fun _ =>
        AtEdge.replace hs rfl (by rw [ha]; rfl)
    · rw [ha]
      rfl
    · rw [ha]
      rfl

theorem Inv.next (h : s.Inv) {act : ReentrantAct κ} (hnext : s.next act = some s') : s'.Inv := by
  obtain ⟨hp, hacc⟩ := h
  cases act with
  | act a =>
    simp only [Reentrant.next] at hnext
    split at hnext
    · obtain rfl := Option.some.inj hnext
      exact ⟨hp.act a, hacc.act hp.pos a⟩
    · cases hnext
  | advance target =>
    simp only [Reentrant.next] at hnext
    split at hnext
    · obtain rfl := Option.some.inj hnext
      refine ⟨hp.congr rfl rfl rfl rfl rfl (fun hr => hr) ?_, hacc.begin target⟩
      rintro - ⟨b, hb, hslot⟩
      exact ⟨b, List.mem_cons_of_mem _ hb, hslot⟩
    · cases hnext
  | raise =>
    simp only [Reentrant.next] at hnext
    split at hnext
    · next target fired slot t due outer hs =>
      obtain rfl := Option.some.inj hnext
      refine ⟨hp.congr rfl rfl rfl rfl rfl ?_ ?_, hacc.raise hs rfl⟩
      · intro hr
        exact absurd hr (by simp)
      · intro hr
        exact absurd hr (by simp)
    · cases hnext
  | goOn =>
    simp only [Reentrant.next] at hnext
    split at hnext
    · cases hnext
    · next a outer hs =>
      obtain rfl := Option.some.inj hnext
      exact Inv.goOn ⟨hp, hacc⟩ hs

end Steps

theorem inv_new (slotsPerWheel levels : ℕ) (h : 0 < slotsPerWheel) :
    (new slotsPerWheel levels : Reentrant κ).Inv := by
  have hok : (World.new slotsPerWheel levels : World κ).Ok := World.ok_new slotsPerWheel levels h
  refine ⟨⟨hok.pos, ?_, ?_, ?_, ?_⟩, ⟨List.Perm.refl _, hok.ids, hok.size, List.Perm.refl _, ?_, ?_⟩⟩
  · intro i t ht
    have hin := hok.bucket i t ht
    exact ⟨hin.slot, hin.inRange, fun _ => ⟨hin.after, hin.soon⟩⟩
  · intro t ht
    exact (hok.overflow t ht).far
  · intro _
    exact Or.inr fun t ht => (hok.overflow t ht).waits
  · intro x hx
    cases hx
  · intro c hc
    cases hc
  · intro _
    rfl

theorem inv_runs (h : s.Inv) {acts : List (ReentrantAct κ)} (hruns : runs next s acts = some s') :
    s'.Inv :=
  runs_invariant (P := Inv) (fun _ _ _ h hnext => h.next hnext) hruns h

/-! ## No timer is lost -/

theorem running_sublist_pending (s : Reentrant κ) : s.running.Sublist s.pending := by
  unfold running pending
  induction s.advances with
  | nil => exact List.Sublist.refl _
  | cons a outer ih =>
    rw [List.flatMap_cons, List.flatMap_cons]
    refine List.Sublist.append ?_ ih
    cases a.place with
    | test => exact List.Sublist.refl _
    | tick slot due => exact List.nil_sublist due
    | callback slot t due => exact (List.nil_sublist due).cons_cons t

/-- No callback runs twice. -/
theorem Accounts.nodup (h : s.Accounts) : (s.world.calls.map (·.timer.id)).Nodup := by
  have hall := (h.ids.nodup_iff).mpr List.nodup_range
  have hpart : (s.running ++ s.raisers ++
      (s.world.turns.filter fun x => !x.cancelled).map (·.timer)).Sublist
        (s.world.timers (s.pending ++ s.lost)) := by
    have hgone := ((running_sublist_pending s).append (List.sublist_append_left s.raisers s.dropped)).append
      ((List.filter_sublist (p := fun x => !x.cancelled) (l := s.world.turns)).map (·.timer))
    exact hgone.trans (List.sublist_append_right _ _)
  have hids := h.calls.map (·.id)
  rw [List.map_map] at hids
  exact hids.nodup_iff.mpr (hall.sublist (hpart.map _))

/-- **Conservation with callbacks that advance the wheel**, in every order in which callbacks and
other code schedule, cancel, call `advance` to any depth, return and raise: each timer is in one
place, the size counts those that are not counted out, no callback runs twice or before its deadline,
and the calls of `advance` together report each callback once if none of them was left by an
exception. -/
theorem reentrant_conserved (slotsPerWheel levels : ℕ) (hpos : 0 < slotsPerWheel)
    (acts : List (ReentrantAct κ)) (s : Reentrant κ)
    (h : runs next (new slotsPerWheel levels) acts = some s) :
    ((s.world.timers (s.pending ++ s.lost)).map (·.id)).Perm (List.range s.world.created) ∧
      s.world.wheel.size = (s.world.wheel.held.length + (s.pending ++ s.lost).length : ℕ) ∧
      (s.world.calls.map (·.timer.id)).Nodup ∧ (∀ c ∈ s.world.calls, c.timer.deadline ≤ c.now) ∧
      (s.advances = [] → s.raisers = [] → s.returned.sum = s.world.calls.length) := by
  have hacc := (inv_runs (inv_new slotsPerWheel levels hpos) h).accounts
  refine ⟨hacc.ids, hacc.size, hacc.nodup, hacc.early, ?_⟩
  intro hidle hr
  have hcount := hacc.fired hr
  rw [running, hidle, List.map_nil, List.sum_nil, List.flatMap_nil, List.length_nil] at hcount
  exact hcount.symm

/-- Timers 0 and 1 are due in tick 1 and timer 2 in tick 2, and the callback of timer 0 advances to
tick 3. -/
def nestedRun : List (ReentrantAct ℕ) :=
  [.act (.schedule 1 0), .act (.schedule 1 1), .act (.schedule 2 2), .advance 2, .goOn, .goOn,
    .advance 3, .goOn, .goOn, .goOn, .goOn, .goOn, .goOn, .goOn, .goOn, .goOn, .goOn, .goOn, .goOn]

/-- Timer 1 has to wait for the nested call, in which timer 2 runs. Each call reports its own. -/
theorem reentrant_conserved_nested :
    ∃ s, runs next (new 4 1) nestedRun = some s ∧
      s.world.calls.map (fun c => (c.now, c.timer.id)) = [(1, 0), (2, 2), (3, 1)] ∧
      s.returned = [1, 2] ∧ s.returned.sum = s.world.calls.length := by
  obtain ⟨s, hs, hcalls, hreturned, hidle, hr⟩ : ∃ s, runs next (new 4 1) nestedRun = some s ∧
      s.world.calls.map (fun c => (c.now, c.timer.id)) = [(1, 0), (2, 2), (3, 1)] ∧
      s.returned = [1, 2] ∧ s.advances = [] ∧ s.raisers = [] := ⟨_, rfl, rfl, rfl, rfl, rfl⟩
  obtain ⟨-, -, -, -, hsum⟩ := reentrant_conserved 4 1 (by decide) nestedRun s hs
  exact ⟨s, hs, hcalls, hreturned, hsum hidle hr⟩

/-! ## No timer is forgotten -/

section Waiting

variable {i m : ℕ} {t : Timer κ}

theorem slots_goOn (s : Reentrant κ) (a : Advance κ) (outer : List (Advance κ)) :
    (s.goOn a outer).world.wheel.slots = s.world.wheel.slots := by
  unfold goOn
  split
  · split <;> rfl
  · exact (s.world.wheel.endTickAt_frame _).1
  · split <;> rfl
  · rfl

theorem slots_next {act : ReentrantAct κ} (hnext : s.next act = some s') :
    s'.world.wheel.slots = s.world.wheel.slots := by
  cases act with
  | act a =>
    simp only [next] at hnext
    split at hnext
    · obtain rfl := Option.some.inj hnext
      exact (World.frame_act s.world a).slots
    · cases hnext
  | advance target =>
    simp only [next] at hnext
    split at hnext
    · obtain rfl := Option.some.inj hnext
      rfl
    · cases hnext
  | raise =>
    simp only [next] at hnext
    split at hnext
    · obtain rfl := Option.some.inj hnext
      rfl
    · cases hnext
  | goOn =>
    simp only [next] at hnext
    split at hnext
    · cases hnext
    · obtain rfl := Option.some.inj hnext
      exact slots_goOn s _ _

/-- The wheel comes to every bucket once in a revolution. -/
theorem exists_mod_eq {slots : ℕ} (hi : i < slots) (m : ℕ) : ∃ n, m < n ∧ n ≤ m + slots ∧ n % slots = i := by
  have hsplit := Nat.div_add_mod (m + 1) slots
  have hlt := Nat.mod_lt (m + 1) (by omega : 0 < slots)
  rcases Nat.lt_or_ge i ((m + 1) % slots) with hlow | hhigh
  · refine ⟨slots * ((m + 1) / slots) + slots + i, by omega, by omega, ?_⟩
    rw [Nat.add_right_comm, Nat.add_mod_right, Nat.mul_add_mod, Nat.mod_eq_of_lt hi]
  · refine ⟨slots * ((m + 1) / slots) + i, by omega, by omega, ?_⟩
    rw [Nat.mul_add_mod, Nat.mod_eq_of_lt hi]

/-- The timer `t`, which was in bucket `i` when the clock showed `m`, has been taken off the wheel
within a revolution, or it is still there and the wheel has not come to the bucket since. -/
def Waits (m i : ℕ) (t : Timer κ) (s : Reentrant κ) : Prop :=
  (∃ n, n ≤ m + s.world.wheel.slots ∧ (n, t) ∈ s.taken) ∨
    t ∈ s.world.wheel.bucket i ∧ ∀ n, m < n → n ≤ s.world.wheel.now → n % s.world.wheel.slots ≠ i

/-- What leaves the clock alone and takes nothing out of the bucket. -/
theorem Waits.congr (h : s.Waits m i t) (hslots : s'.world.wheel.slots = s.world.wheel.slots)
    (hnow : s'.world.wheel.now = s.world.wheel.now) (htaken : s'.taken = s.taken)
    (hbucket : t ∈ s.world.wheel.bucket i → t ∈ s'.world.wheel.bucket i) : s'.Waits m i t := by
  unfold Waits
  rw [hslots, hnow, htaken]
  exact h.imp_right fun ⟨hmem, hnot⟩ => ⟨hbucket hmem, hnot⟩

theorem Waits.drained (hp : s.Placing) (h : s.Waits m i t) {a : Advance κ} {outer : List (Advance κ)}
    {v : HierarchicalTimingWheel κ} (hv : v = { s.world.wheel with now := s.world.wheel.now + 1 }) :
    (s.drained a outer v).Waits m i t := by
  have hslots : v.slots = s.world.wheel.slots := by rw [hv]
  have hnow : v.now = s.world.wheel.now + 1 := by rw [hv]
  have hbucket : v.bucket i = s.world.wheel.bucket i := by rw [hv]; rfl
  have hpos : 0 < v.slots := hslots ▸ hp.pos
  show (∃ n, n ≤ m + v.slots ∧ (n, t) ∈ s.taken ++ v.drain.1.map fun t => (v.now, t)) ∨
    t ∈ v.drain.2.bucket i ∧ ∀ n, m < n → n ≤ v.now → n % v.slots ≠ i
  rcases h with ⟨n, hn, hmem⟩ | ⟨hmem, hnot⟩
  · exact Or.inl ⟨n, hslots ▸ hn, List.mem_append_left _ hmem⟩
  · have hplaced := hp.bucket i t hmem
    by_cases hi : i = v.now % v.slots
    · -- the wheel has come to the bucket
      left
      have hlt : i < s.world.wheel.slots := hplaced.slot ▸ Nat.mod_lt _ hp.pos
      obtain ⟨n, hmn, hnm, hni⟩ := exists_mod_eq hlt m
      have hlater : s.world.wheel.now < n := by
        by_contra hle
        exact hnot n hmn (Nat.not_lt.mp hle) hni
      refine ⟨v.now, by omega, List.mem_append_right _ (List.mem_map_of_mem ?_)⟩
      have hdue := hplaced
      rw [hi, hnow, hslots] at hdue
      refine List.mem_filter.mpr ⟨?_, ?_⟩
      · rw [← hi, hbucket]
        exact hmem
      · rw [decide_eq_true_eq, hnow]
        exact hdue.due.1
    · right
      refine ⟨?_, ?_⟩
      · rw [HierarchicalTimingWheel.bucket_drain_of_ne hi, hbucket]
        exact hmem
      · intro n hmn hle
        rw [hnow] at hle
        rcases Nat.lt_or_ge s.world.wheel.now n with hlt | hge
        · have heq : n = v.now := by omega
          rw [heq]
          exact Ne.symm hi
        · rw [hslots]
          exact hnot n hmn hge

theorem Waits.goOn (hp : s.Placing) (h : s.Waits m i t) {a : Advance κ} {outer : List (Advance κ)} :
    (s.goOn a outer).Waits m i t := by
  cases ha : a.place with
  | test =>
    by_cases hlt : (s.world.wheel.now : ℤ) < a.target
    · rw [goOn_of_lt ha hlt rfl]
      exact h.drained hp rfl
    · simp only [Reentrant.goOn, ha, if_neg hlt]
      exact h.congr rfl rfl rfl fun hmem => hmem
  | tick slot due =>
    cases due with
    | nil =>
      simp only [Reentrant.goOn, ha]
      obtain ⟨hslots, hnow, -⟩ := s.world.wheel.endTickAt_frame slot
      refine h.congr hslots hnow rfl fun hmem => ?_
      show t ∈ (s.world.wheel.endTickAt slot).bucket i
      by_cases hlast : slot = s.world.wheel.slots - 1
      · rw [HierarchicalTimingWheel.endTickAt_of_eq hlast]
        have hall := HierarchicalTimingWheel.bucket_placeAll (w := { s.world.wheel with overflow := [] })
          hp.pos s.world.wheel.overflow i
        exact hall ▸ List.mem_append_left _ hmem
      · rwa [HierarchicalTimingWheel.endTickAt_of_ne hlast]
    | cons u due =>
      by_cases hc : s.world.cancelled u.id = true
      · simp only [Reentrant.goOn, ha, if_pos hc]
        exact h.congr rfl rfl rfl fun hmem => hmem
      · simp only [Reentrant.goOn, ha, if_neg hc]
        exact h.congr rfl rfl rfl fun hmem => hmem
  | callback slot u due =>
    simp only [Reentrant.goOn, ha]
    exact h.congr rfl rfl rfl fun hmem => hmem

theorem Waits.next (hp : s.Placing) (h : s.Waits m i t) {act : ReentrantAct κ}
    (hnext : s.next act = some s') : s'.Waits m i t := by
  cases act with
  | act a =>
    simp only [Reentrant.next] at hnext
    split at hnext
    · obtain rfl := Option.some.inj hnext
      have hframe := World.frame_act s.world a
      refine h.congr hframe.slots hframe.now rfl fun hmem => ?_
      cases a with
      | setCancelled id cancelled => exact hmem
      | schedule delay callback =>
        have hbucket := World.bucket_register hp.pos delay callback i
        exact hbucket ▸ List.mem_append_left _ hmem
    · cases hnext
  | advance target =>
    simp only [Reentrant.next] at hnext
    split at hnext
    · obtain rfl := Option.some.inj hnext
      exact h.congr rfl rfl rfl fun hmem => hmem
    · cases hnext
  | raise =>
    simp only [Reentrant.next] at hnext
    split at hnext
    · obtain rfl := Option.some.inj hnext
      exact h.congr rfl rfl rfl fun hmem => hmem
    · cases hnext
  | goOn =>
    simp only [Reentrant.next] at hnext
    split at hnext
    · cases hnext
    · obtain rfl := Option.some.inj hnext
      exact h.goOn hp

/-- A timer in a bucket is taken off the wheel within a revolution of the clock. -/
theorem taken_of_runs (h : s.Inv) (ht : t ∈ s.world.wheel.bucket i) {acts : List (ReentrantAct κ)}
    (hruns : runs next s acts = some s')
    (hlate : s.world.wheel.now + s.world.wheel.slots ≤ s'.world.wheel.now) :
    ∃ n, n ≤ s.world.wheel.now + s.world.wheel.slots ∧ (n, t) ∈ s'.taken := by
  have hstart : s.Waits s.world.wheel.now i t :=
    Or.inr ⟨ht, fun n hlt hle => absurd hle (Nat.not_le.mpr hlt)⟩
  obtain ⟨-, hslots, hwaits⟩ := runs_invariant
    (P := fun u => u.Inv ∧ u.world.wheel.slots = s.world.wheel.slots ∧ u.Waits s.world.wheel.now i t)
    (fun _ _ _ hu hnext => ⟨hu.1.next hnext, (slots_next hnext).trans hu.2.1,
      hu.2.2.next hu.1.placing hnext⟩) hruns ⟨h, rfl, hstart⟩
  rcases hwaits with ⟨n, hn, hmem⟩ | ⟨-, hnot⟩
  · exact ⟨n, hslots ▸ hn, hmem⟩
  · rw [hslots] at hnot
    have hslot := (h.placing.bucket i t ht).slot
    obtain ⟨n, hmn, hnm, hni⟩ := exists_mod_eq (hslot ▸ Nat.mod_lt _ h.placing.pos) s.world.wheel.now
    exact absurd hni (hnot n hmn (Nat.le_trans hnm hlate))

end Waiting

/-- **Timeliness with callbacks that advance the wheel**: a timer that was scheduled within one
revolution leaves its bucket in exactly the tick in which it would fire without nested calls, any
other timer never before its deadline; a timer in a bucket waits for at most one revolution of the
clock; and when no `advance` is in progress (and no exception has left one), no timer of the overflow
list is due. -/
theorem reentrant_on_time (slotsPerWheel levels : ℕ) (hpos : 0 < slotsPerWheel)
    (acts : List (ReentrantAct κ)) (s : Reentrant κ)
    (h : runs next (new slotsPerWheel levels) acts = some s) :
    (∀ n t, (n, t) ∈ s.taken → t.deadline ≤ n ∧
        (t.delay < s.world.wheel.slots → n = t.fires s.world.wheel.slots)) ∧
      (∀ t ∈ s.world.wheel.held, t.delay < s.world.wheel.slots →
        s.world.wheel.now < t.fires s.world.wheel.slots) ∧
      (∀ i, ∀ t ∈ s.world.wheel.bucket i, ∀ more s', runs next s more = some s' →
        s.world.wheel.now + s.world.wheel.slots ≤ s'.world.wheel.now →
        ∃ n, n ≤ s.world.wheel.now + s.world.wheel.slots ∧ (n, t) ∈ s'.taken) ∧
      (s.advances = [] → s.raisers = [] → ∀ t ∈ s.world.wheel.overflow, s.world.wheel.now < t.deadline) := by
  have hinv := inv_runs (inv_new slotsPerWheel levels hpos) h
  have hp := hinv.placing
  refine ⟨?_, ?_, fun i t ht more s' hmore hlate => taken_of_runs hinv ht hmore hlate, ?_⟩
  · intro n t hmem
    obtain ⟨hdue, -, hnear⟩ := hp.taken _ hmem
    exact ⟨hdue, hnear⟩
  · intro t ht hd
    rcases HierarchicalTimingWheel.mem_held_iff.mp ht with ⟨i, hi⟩ | ho
    · exact ((hp.bucket i t hi).near hd).1
    · exact absurd hd (Nat.not_lt.mpr (hp.overflow t ho))
  · intro hidle hr t ht
    rcases hp.edge hr with ⟨a, ha, -⟩ | hlater
    · rw [hidle] at ha
      cases ha
    · by_contra hle
      exact absurd (revolution_le (Nat.not_lt.mp hle)) (Nat.not_le.mpr (hlater t ht))

/-- Timer 1 runs two ticks late, but it left its bucket in time. -/
theorem reentrant_on_time_nested :
    ∃ s, runs next (new 4 1) nestedRun = some s ∧ (1, ⟨1, 1, 1, 1⟩) ∈ s.taken ∧
      1 = (⟨1, 1, 1, 1⟩ : Timer ℕ).fires s.world.wheel.slots := by
  obtain ⟨s, hs, hmem, hslots⟩ : ∃ s, runs next (new 4 1) nestedRun = some s ∧
      (1, ⟨1, 1, 1, 1⟩) ∈ s.taken ∧ s.world.wheel.slots = 4 := ⟨_, rfl, by decide, rfl⟩
  obtain ⟨htaken, -⟩ := reentrant_on_time 4 1 (by decide) nestedRun s hs
  refine ⟨s, hs, hmem, (htaken _ _ hmem).2 ?_⟩
  rw [hslots]
  decide

/-! ## Callbacks that leave `advance` alone -/

section Plain

/-- A call of `advance` in progress, with the world in which it is. -/
def inside (s : Reentrant κ) (w : World κ) (a : Advance κ) : Reentrant κ :=
  { s with world := w, advances := a :: s.advances }

/-- The actions of a callback, one after the other. -/
theorem runs_acts (ho : s.outside = true) (as : List (Act κ)) :
    runs next s (as.map .act) = some { s with world := as.foldl World.act s.world } := by
  induction as generalizing s with
  | nil => rfl
  | cons a as ih =>
    rw [List.map_cons, runs_cons_iff]
    have hone : s.next (.act a) = some { s with world := s.world.act a } := if_pos ho
    exact ⟨_, hone, ih (s := { s with world := s.world.act a }) ho⟩

/-- One turn. -/
theorem runs_turn (env : κ → World κ → List (Act κ)) (s : Reentrant κ) (w : World κ) (target : ℤ)
    (fired slot : ℕ) (t : Timer κ) (due : List (Timer κ)) :
    ∃ acts, runs next (s.inside w ⟨target, fired, .tick slot (t :: due)⟩) acts =
      some (s.inside (World.turn env (fired, w) t).2
        ⟨target, (World.turn env (fired, w) t).1, .tick slot due⟩) := by
  cases hc : w.cancelled t.id with
  | true => exact ⟨[.goOn], by simp [runs, next, goOn, inside, World.turn, Raising.countOut, hc]⟩
  | false =>
    set v : World κ := { w with calls := w.calls ++ [⟨w.wheel.now, t⟩] } with hv
    have hcall : next (s.inside w ⟨target, fired, .tick slot (t :: due)⟩) .goOn =
        some (s.inside v ⟨target, fired, .callback slot t due⟩) := by
      simp [next, goOn, inside, hc, hv]
    have hacts := runs_acts (s := s.inside v ⟨target, fired, .callback slot t due⟩) rfl
      (env t.callback v)
    refine ⟨.goOn :: ((env t.callback v).map .act ++ [.goOn]),
      runs_cons_iff.mpr ⟨_, hcall, runs_append_iff.mpr ⟨_, hacts, ?_⟩⟩⟩
    simp [runs, next, goOn, inside, World.turn, World.call, Raising.countOut, hc, ← hv]

theorem runs_turns (env : κ → World κ → List (Act κ)) (s : Reentrant κ) (w : World κ) (target : ℤ)
    (fired slot : ℕ) (due : List (Timer κ)) :
    ∃ acts, runs next (s.inside w ⟨target, fired, .tick slot due⟩) acts =
      some (s.inside (due.foldl (World.turn env) (fired, w)).2
        ⟨target, (due.foldl (World.turn env) (fired, w)).1, .tick slot []⟩) := by
  induction due generalizing w fired with
  | nil => exact ⟨[], rfl⟩
  | cons t due ih =>
    obtain ⟨as, has⟩ := runs_turn env s w target fired slot t due
    obtain ⟨bs, hbs⟩ := ih (World.turn env (fired, w) t).2 (World.turn env (fired, w) t).1
    exact ⟨as ++ bs, runs_append_iff.mpr ⟨_, has, hbs⟩⟩

/-- The count that a tick starts with is passed through. -/
theorem turns_foldl_add (env : κ → World κ → List (Act κ)) (due : List (Timer κ)) (n fired : ℕ)
    (w : World κ) :
    due.foldl (World.turn env) (n + fired, w) =
      (n + (due.foldl (World.turn env) (fired, w)).1, (due.foldl (World.turn env) (fired, w)).2) := by
  induction due generalizing fired w with
  | nil => rfl
  | cons t due ih =>
    rw [List.foldl_cons, List.foldl_cons, World.turn_eq, World.turn_eq, Nat.add_assoc]
    exact ih _ _

/-- One round of the loop, during whose callbacks the clock does not move. -/
theorem runs_round (env : κ → World κ → List (Act κ)) (s : Reentrant κ) (w : World κ) {target : ℤ}
    (fired : ℕ) (hlt : (w.wheel.now : ℤ) < target) :
    (World.round env w).2.wheel.now = w.wheel.now + 1 ∧
      ∃ acts taken, runs next (s.inside w ⟨target, fired, .test⟩) acts =
        some (inside { s with taken } (World.round env w).2
          ⟨target, fired + (World.round env w).1, .test⟩) := by
  set v : HierarchicalTimingWheel κ := { w.wheel with now := w.wheel.now + 1 } with hv
  set u := v.drain.1.foldl (World.turn env) (0, { w with wheel := v.drain.2 }) with hu
  obtain ⟨-, -, -, hslots, hnow, -⟩ :=
    World.turns_foldl_log env v.drain.1 0 { w with wheel := v.drain.2 }
  have hend : u.2.wheel.endTickAt (v.now % v.slots) = u.2.wheel.endTick := by
    have hsame : v.now % v.slots = u.2.wheel.now % u.2.wheel.slots := by
      rw [hslots, hnow]
      rfl
    rw [hsame]
    rfl
  rw [World.round_eq env w hv hu]
  refine ⟨u.2.wheel.endTick_frame.2.1.trans hnow, ?_⟩
  set s' : Reentrant κ := { s with taken := s.taken ++ v.drain.1.map fun t => (v.now, t) } with hs'
  have hstart : next (s.inside w ⟨target, fired, .test⟩) .goOn =
      some (s'.inside { w with wheel := v.drain.2 }
        ⟨target, fired, .tick (v.now % v.slots) v.drain.1⟩) :=
    congrArg some (goOn_of_lt rfl hlt hv)
  obtain ⟨as, has⟩ := runs_turns env s' { w with wheel := v.drain.2 } target fired (v.now % v.slots)
    v.drain.1
  have hsum := turns_foldl_add env v.drain.1 fired 0 { w with wheel := v.drain.2 }
  rw [Nat.add_zero, ← hu] at hsum
  rw [hsum] at has
  refine ⟨.goOn :: (as ++ [.goOn]), s'.taken,
    runs_cons_iff.mpr ⟨_, hstart, runs_append_iff.mpr ⟨_, has, ?_⟩⟩⟩
  simp [runs, next, goOn, inside, hend, hs']

/-- **Where no callback calls `advance`, the wheel is the plain one.** -/
theorem runs_advance (env : κ → World κ → List (Act κ)) (s : Reentrant κ) (ho : s.outside = true)
    (target : ℤ) :
    ∃ acts taken, runs next s acts = some { s with
      world := (s.world.advance env target).2
      taken := taken
      returned := s.returned ++ [(s.world.advance env target).1] } := by
  suffices hloop : ∀ (n fired : ℕ) (w : World κ) (s : Reentrant κ), (target - w.wheel.now).toNat ≤ n →
      ∃ acts taken, runs next (s.inside w ⟨target, fired, .test⟩) acts = some { s with
        world := (World.advanceLoop env target n fired w).2
        taken := taken
        returned := s.returned ++ [(World.advanceLoop env target n fired w).1] } by
    obtain ⟨acts, taken, hacts⟩ := hloop _ 0 s.world s (Nat.le_refl _)
    have hbegin : next s (.advance target) = some (s.inside s.world ⟨target, 0, .test⟩) := if_pos ho
    exact ⟨.advance target :: acts, taken, runs_cons_iff.mpr ⟨_, hbegin, hacts⟩⟩
  intro n
  induction n with
  | zero =>
    intro fired w s hn
    have hlt : ¬ (w.wheel.now : ℤ) < target := by omega
    exact ⟨[.goOn], s.taken, by simp [runs, next, goOn, inside, hlt, World.advanceLoop]⟩
  | succ n ih =>
    intro fired w s hn
    rw [World.advanceLoop_succ]
    by_cases hlt : (w.wheel.now : ℤ) < target
    · obtain ⟨hnow, as, taken, has⟩ := runs_round env s w fired hlt
      obtain ⟨bs, taken', hbs⟩ := ih (fired + (World.round env w).1) (World.round env w).2
        { s with taken } (by rw [hnow]; omega)
      rw [if_pos hlt]
      exact ⟨as ++ bs, taken', runs_append_iff.mpr ⟨_, has, hbs⟩⟩
    · rw [if_neg hlt]
      exact ⟨[.goOn], s.taken, by simp [runs, next, goOn, inside, hlt]⟩

end Plain

end Reentrant

end DurableExecution
