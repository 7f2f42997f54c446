import Mathlib.Data.List.Nodup
import DurableExecution.Wheel.Proofs.InvariantProofs

/-!
# Proofs: when timers fire

Between ticks no timer is lost or doubled, and each one is gone exactly when the clock has reached
`Timer.fires`. That is the deadline, except for the timers with delay 0, which wait for the wheel to
wrap, and for the far timers whose deadline is the last tick of a revolution.
-/

namespace DurableExecution

variable {κ : Type}

namespace World

variable {env : κ → World κ → List (Act κ)} {w : World κ} {t u : Timer κ}

/-! ## Every timer is at one place -/

theorem Ok.nodup (hw : w.Ok) : ((w.timers []).map (·.id)).Nodup :=
  hw.ids.nodup_iff.mpr List.nodup_range

/-- A timer is known by its id. -/
theorem Ok.eq_of_id (hw : w.Ok) (ht : t ∈ w.timers []) (hu : u ∈ w.timers []) (hid : t.id = u.id) :
    t = u :=
  List.inj_on_of_nodup_map hw.nodup ht hu hid

theorem Ok.id_lt (hw : w.Ok) (ht : t ∈ w.timers []) : t.id < w.created := by
  have hmem : t.id ∈ (w.timers []).map (·.id) := List.mem_map_of_mem ht
  exact List.mem_range.mp (hw.ids.mem_iff.mp hmem)

theorem mem_timers_iff : t ∈ w.timers [] ↔ t ∈ w.wheel.held ∨ ∃ x ∈ w.turns, x.timer = t := by
  simp [timers]

/-- A timer that is still on the wheel fires later. -/
theorem Ok.now_lt_fires (hw : w.Ok) (ht : t ∈ w.wheel.held) :
    w.wheel.now < t.fires w.wheel.slots := by
  rcases HierarchicalTimingWheel.mem_held_iff.mp ht with ⟨i, hi⟩ | ho
  · exact (hw.bucket i t hi).after
  · have hwaits := (hw.overflow t ho).waits
    have hdeadline : w.wheel.now < t.deadline := by
      by_contra hle
      have hrev : revolution w.wheel.slots t.deadline ≤ revolution w.wheel.slots w.wheel.now :=
        revolution_le (Nat.le_of_not_lt hle)
      omega
    exact Nat.lt_of_lt_of_le hdeadline (t.le_fires _)

/-- A timer whose tick has come has taken its turn in it. -/
theorem Ok.turn_of_fires_le (hw : w.Ok) (ht : t ∈ w.timers [])
    (hle : t.fires w.wheel.slots ≤ w.wheel.now) :
    ∃ x ∈ w.turns, x.timer = t ∧ x.now = t.fires w.wheel.slots := by
  rcases mem_timers_iff.mp ht with hheld | ⟨x, hx, rfl⟩
  · have := hw.now_lt_fires hheld
    omega
  · exact ⟨x, hx, rfl, (hw.turns x hx).1⟩

/-- Before its tick it has not. -/
theorem Ok.not_turn_of_lt_fires (hw : w.Ok) (ht : t ∈ w.timers [])
    (hlt : w.wheel.now < t.fires w.wheel.slots) : ∀ x ∈ w.turns, x.timer.id ≠ t.id := by
  intro x hx hid
  have hmem : x.timer ∈ w.timers [] := mem_timers_iff.mpr (Or.inr ⟨x, hx, rfl⟩)
  have heq := hw.eq_of_id hmem ht hid
  obtain ⟨hnow, hle, -⟩ := hw.turns x hx
  rw [heq] at hnow
  omega

/-- In a list without repeated keys, an element is the only one with its key. -/
theorem filter_eq_singleton {β : Type} (f : β → ℕ) {l : List β} (hl : (l.map f).Nodup) {x : β}
    (hx : x ∈ l) : (l.filter fun y => f y = f x) = [x] := by
  induction l with
  | nil => cases hx
  | cons y l ih =>
    obtain ⟨hy, hl'⟩ := List.nodup_cons.mp hl
    rcases List.mem_cons.mp hx with rfl | hx
    · rw [List.filter_cons_of_pos (by simp), List.filter_eq_nil_iff.mpr]
      intro z hz
      have hne : f z ≠ f x := fun h => hy (h ▸ List.mem_map_of_mem hz)
      simpa using hne
    · have hne : f y ≠ f x := fun h => hy (h ▸ List.mem_map_of_mem hx)
      rw [List.filter_cons_of_neg (by simpa using hne)]
      exact ih hl' hx

theorem Ok.filter_turns (hw : w.Ok) {x : Turn κ} (hx : x ∈ w.turns) :
    (w.turns.filter fun y => y.timer.id = x.timer.id) = [x] := by
  have hsub : (w.turns.map fun x => x.timer.id).Sublist ((w.timers []).map (·.id)) := by
    rw [timers, List.nil_append, List.map_append, List.map_map]
    exact List.sublist_append_right ..
  exact filter_eq_singleton (fun x : Turn κ => x.timer.id) (hsub.nodup hw.nodup) hx

/-! ## Conservation -/

/-- No timer is lost, doubled, early, or more than one revolution late. -/
structure Conserved (w : World κ) : Prop where
  /-- Every timer that was scheduled is at exactly one place of the wheel, or has had its turn. -/
  ids : ((w.wheel.held ++ w.turns.map (·.timer)).map (·.id)).Perm (List.range w.created)
  size : w.wheel.size = w.wheel.held.length
  /-- No turn takes the size below zero. -/
  size_nonneg : ∀ x ∈ w.turns, 0 ≤ x.size
  /-- A turn is taken at the deadline or one revolution after it. -/
  turn : ∀ x ∈ w.turns, x.now = x.timer.deadline ∨ x.now = x.timer.deadline + w.wheel.slots
  /-- A timer that is still on the wheel is not overdue by a revolution. -/
  held : ∀ t ∈ w.wheel.held, w.wheel.now < t.deadline + w.wheel.slots
  /-- The callbacks ran in the turns of the timers that were not cancelled then. -/
  calls : w.calls = callsIn w.turns

theorem fires_le (slots : ℕ) (t : Timer κ) : t.fires slots ≤ t.deadline + slots := by
  unfold Timer.fires
  split <;> omega

theorem Ok.conserved (hw : w.Ok) (hcalls : w.calls = callsIn w.turns) : w.Conserved where
  ids := hw.ids
  size := hw.size
  size_nonneg := fun x hx => (hw.turns x hx).2.2
  turn := by
    intro x hx
    have hnow := (hw.turns x hx).1
    by_cases hlate : x.timer.Late w.wheel.slots
    · exact Or.inr (hnow.trans (Timer.fires_of_late hlate))
    · exact Or.inl (hnow.trans (Timer.fires_of_not_late hlate))
  held := fun t ht => Nat.lt_of_lt_of_le (hw.now_lt_fires ht) (fires_le _ t)
  calls := hcalls

theorem ok_run (slotsPerWheel levels : ℕ) (h : 0 < slotsPerWheel)
    (env : κ → World κ → List (Act κ)) (ops : List (Op κ)) :
    (run env (new slotsPerWheel levels) ops).Ok ∧
      (run env (new slotsPerWheel levels) ops).calls =
        callsIn (run env (new slotsPerWheel levels) ops).turns ∧
      (run env (new slotsPerWheel levels) ops).wheel.slots = slotsPerWheel * max levels 1 := by
  obtain ⟨hok, new, hev⟩ := (ok_new slotsPerWheel levels h).run env ops
  refine ⟨hok, ?_, hev.slots⟩
  rw [hev.calls, hev.turns]
  rfl

/-- **Timers are conserved** in every run, with callbacks that schedule timers and set flags, and
`advance` ends at the time it was asked for and reports the callbacks that it ran. -/
theorem timers_conserved (slotsPerWheel levels : ℕ) (h : 0 < slotsPerWheel)
    (env : κ → World κ → List (Act κ)) (ops : List (Op κ)) :
    (run env (new slotsPerWheel levels) ops).Conserved ∧
      (∀ more, (run env (new slotsPerWheel levels) ops).turns <+:
        (run env (new slotsPerWheel levels) (ops ++ more)).turns) ∧
      ∀ target fired w', (run env (new slotsPerWheel levels) ops).advance env target = (fired, w') →
        w'.calls.length = (run env (new slotsPerWheel levels) ops).calls.length + fired ∧
        (w'.wheel.now : ℤ) = max ((run env (new slotsPerWheel levels) ops).wheel.now : ℤ) target := by
  obtain ⟨hok, hcalls, -⟩ := ok_run slotsPerWheel levels h env ops
  refine ⟨hok.conserved hcalls, ?_, ?_⟩
  · intro more
    obtain ⟨-, new, hev⟩ := hok.run env more
    have happend : run env (World.new slotsPerWheel levels) (ops ++ more) =
        run env (run env (World.new slotsPerWheel levels) ops) more := List.foldl_append
    rw [happend, hev.turns]
    exact List.prefix_append _ _
  · intro target fired w' hadv
    obtain ⟨-, hnow, new, hev, hfired⟩ := hok.advance env target
    rw [hadv] at hnow hev hfired
    have hcount : fired = (callsIn new).length := hfired
    exact ⟨by rw [hev.calls, List.length_append, hcount], hnow⟩

/-- A callback that re-arms its timer with delay 3, on a wheel of 4 slots. -/
theorem timers_conserved_rearmed :
    (run (fun _ _ => [.schedule 3 ()]) (new 4 1) [.schedule 3 (), .advance 7]).Conserved ∧
      (run (fun _ _ => [.schedule 3 ()]) (new 4 1) [.schedule 3 (), .advance 7]).wheel.held.length =
        1 := by
  have hall := timers_conserved 4 1 (by decide) (fun _ _ => [.schedule 3 ()])
    [.schedule 3 (), .advance 7]
  exact ⟨hall.1, by decide⟩

/-! ## The clock -/

/-- What the clock shows after the operations. -/
def clock (n : ℕ) (ops : List (Op κ)) : ℕ :=
  ops.foldl (fun n o => match o with | .advance target => max n target.toNat | _ => n) n

theorem now_op (hw : w.Ok) (env : κ → World κ → List (Act κ)) (o : Op κ) :
    (op env w o).wheel.now = clock w.wheel.now [o] := by
  cases o with
  | schedule delay callback =>
    by_cases hd : delay < 0
    · rw [op_schedule_of_neg env w callback hd]
      rfl
    · rw [op_schedule_of_nonneg env w callback hd]
      exact now_register w delay.toNat callback
  | setCancelled id cancelled => rfl
  | advance target =>
    obtain ⟨-, hnow, -⟩ := hw.advance env target
    show (w.advance env target).2.wheel.now = max w.wheel.now target.toNat
    omega

theorem now_run (hw : w.Ok) (env : κ → World κ → List (Act κ)) (ops : List (Op κ)) :
    (run env w ops).wheel.now = clock w.wheel.now ops := by
  induction ops generalizing w with
  | nil => rfl
  | cons o ops ih =>
    have hrest := ih (hw.op env o).1
    rw [now_op hw env o] at hrest
    exact hrest

/-! ## The exact tick -/

/-- The callback of `t` runs in the tick `tick` and in no other, unless `t` is cancelled when its
turn comes. -/
def RunsAt (w : World κ) (t : Timer κ) (tick : ℕ) : Prop :=
  (w.wheel.now < tick → ∀ c ∈ w.calls, c.timer.id ≠ t.id) ∧
  (tick ≤ w.wheel.now → (∀ x ∈ w.turns, x.timer.id = t.id → x.cancelled = false) →
    (w.calls.filter fun c => c.timer.id = t.id) = [⟨tick, t⟩])

theorem filter_callsIn (turns : List (Turn κ)) (id : ℕ) :
    ((callsIn turns).filter fun c => c.timer.id = id) =
      callsIn (turns.filter fun x => x.timer.id = id) := by
  unfold callsIn
  rw [List.filter_map, List.filter_filter, List.filter_filter]
  congr 1
  exact List.filter_congr fun x _ => Bool.and_comm _ _

/-- Every timer runs in the tick `Timer.fires`. -/
theorem Ok.runsAt_fires (hw : w.Ok) (hcalls : w.calls = callsIn w.turns) (ht : t ∈ w.timers []) :
    w.RunsAt t (t.fires w.wheel.slots) := by
  constructor
  · intro hlt c hc hid
    have hnone := hw.not_turn_of_lt_fires ht hlt
    rw [hcalls] at hc
    obtain ⟨x, hx, rfl⟩ := List.mem_map.mp hc
    exact hnone x (List.mem_filter.mp hx).1 hid
  · intro hle hflag
    obtain ⟨x, hx, rfl, hnow⟩ := hw.turn_of_fires_le ht hle
    have hcancel := hflag x hx rfl
    rw [hcalls, filter_callsIn, hw.filter_turns hx]
    simp [callsIn, hcancel, hnow]

/-- A timer that was just scheduled is one of the timers from then on. -/
theorem Ok.scheduled (hw : w.Ok) (hcalls : w.calls = callsIn w.turns)
    (env : κ → World κ → List (Act κ)) (delay : ℕ) (callback : κ) (ops : List (Op κ)) :
    (World.run env (w.register delay callback) ops).Ok ∧
      (World.run env (w.register delay callback) ops).calls =
        callsIn (World.run env (w.register delay callback) ops).turns ∧
      (World.run env (w.register delay callback) ops).wheel.slots = w.wheel.slots ∧
      w.nextTimer delay callback ∈ (World.run env (w.register delay callback) ops).timers [] := by
  obtain ⟨hok, hev⟩ := hw.register delay callback
  obtain ⟨hok', new, hev'⟩ := hok.run env ops
  have hall := hev.trans hev'
  have hmem : w.nextTimer delay callback ∈ (w.register delay callback).timers [] :=
    (timers_register hw.pos delay callback).mem_iff.mpr List.mem_cons_self
  refine ⟨hok', ?_, hall.slots, hev'.grows.mem hmem⟩
  rw [hall.calls, hall.turns, callsIn_append w.turns, hcalls]

theorem schedule_ok_iff {w' : World κ} {delay : ℕ} {callback : κ} :
    w.schedule delay callback = .ok (t, w') ↔
      t = w.nextTimer delay callback ∧ w' = w.register delay callback := by
  have hdelay : ¬ (delay : ℤ) < 0 := by omega
  rw [schedule, if_neg hdelay, Int.toNat_natCast]
  constructor
  · intro h
    obtain ⟨rfl, rfl⟩ := Prod.mk.inj (Except.ok.inj h)
    exact ⟨rfl, rfl⟩
  · rintro ⟨rfl, rfl⟩
    rfl

/-- In the tick before its own, the callback of a timer has not run. -/
theorem Ok.not_runsAt (hw : w.Ok) (hcalls : w.calls = callsIn w.turns) (ht : t ∈ w.timers [])
    (hlt : w.wheel.now < t.fires w.wheel.slots) {tick : ℕ} (htick : tick ≤ w.wheel.now) :
    ¬ w.RunsAt t tick := by
  intro hruns
  have hnone := hw.not_turn_of_lt_fires ht hlt
  have hcall := hruns.2 htick fun x hx hid => absurd hid (hnone x hx)
  have hmem : (⟨tick, t⟩ : Call κ) ∈ w.calls.filter fun c => c.timer.id = t.id := by
    rw [hcall]
    exact List.mem_singleton.mpr rfl
  rw [hcalls] at hmem
  obtain ⟨x, hx, hxt⟩ := List.mem_map.mp (List.mem_filter.mp hmem).1
  have htimer : x.timer = t := congrArg Call.timer hxt
  exact hnone x (List.mem_filter.mp hx).1 (congrArg Timer.id htimer)

theorem late_nextTimer_iff (hpos : 0 < w.wheel.slots) (delay : ℕ) (callback : κ) :
    (w.nextTimer delay callback).Late w.wheel.slots ↔
      delay = 0 ∨ w.wheel.slots ≤ delay ∧
        (w.wheel.now + delay) % w.wheel.slots = w.wheel.slots - 1 := by
  rw [mod_eq_last_iff hpos]
  rfl

/-- A far timer whose deadline is the last tick of a revolution has not run at its deadline. -/
theorem Ok.not_runsAt_deadline (hw : w.Ok) (hcalls : w.calls = callsIn w.turns)
    (env : κ → World κ → List (Act κ)) {delay : ℕ} (callback : κ) (hfar : w.wheel.slots ≤ delay)
    (hlast : (w.wheel.now + delay) % w.wheel.slots = w.wheel.slots - 1) :
    ¬ (World.run env (w.register delay callback) [.advance (w.wheel.now + delay : ℕ)]).RunsAt
      (w.nextTimer delay callback) (w.wheel.now + delay) := by
  have hpos := hw.pos
  have hlate := (late_nextTimer_iff hpos delay callback).mpr (Or.inr ⟨hfar, hlast⟩)
  have hfires := Timer.fires_of_late hlate
  have hdeadline : (w.nextTimer delay callback).deadline = w.wheel.now + delay := rfl
  obtain ⟨hok, hcalls', hslots, hmem⟩ :=
    hw.scheduled hcalls env delay callback [.advance (w.wheel.now + delay : ℕ)]
  have hnow := now_run (hw.register delay callback).1 env [.advance (w.wheel.now + delay : ℕ)]
  have hclock : clock (w.register delay callback).wheel.now
      ([.advance (w.wheel.now + delay : ℕ)] : List (Op κ)) = w.wheel.now + delay := by
    rw [now_register]
    show max w.wheel.now ((w.wheel.now + delay : ℕ) : ℤ).toNat = w.wheel.now + delay
    omega
  rw [hclock] at hnow
  refine hok.not_runsAt hcalls' hmem ?_ (Nat.le_of_eq hnow.symm)
  rw [hslots, hfires, hnow, hdeadline]
  omega

/-- Every other timer runs at its deadline, or `slots` ticks from now if its delay is 0. -/
theorem Ok.runsAt_onTime (hw : w.Ok) (hcalls : w.calls = callsIn w.turns)
    (env : κ → World κ → List (Act κ)) {delay : ℕ} (callback : κ)
    (hgood : ¬ (w.wheel.slots ≤ delay ∧
      (w.wheel.now + delay) % w.wheel.slots = w.wheel.slots - 1)) (ops : List (Op κ)) :
    (World.run env (w.register delay callback) ops).RunsAt (w.nextTimer delay callback)
      (if delay = 0 then w.wheel.now + w.wheel.slots else w.wheel.now + delay) := by
  have hlate := late_nextTimer_iff hw.pos delay callback
  have hdeadline : (w.nextTimer delay callback).deadline = w.wheel.now + delay := rfl
  obtain ⟨hok, hcalls', hslots, hmem⟩ := hw.scheduled hcalls env delay callback ops
  have hruns := hok.runsAt_fires hcalls' hmem
  rw [hslots] at hruns
  by_cases hzero : delay = 0
  · rw [Timer.fires_of_late (hlate.mpr (Or.inl hzero)), hdeadline] at hruns
    rw [if_pos hzero]
    subst hzero
    exact hruns
  · have hnot : ¬ (w.nextTimer delay callback).Late w.wheel.slots := by
      rw [hlate]
      rintro (hz | hb)
      · exact hzero hz
      · exact hgood hb
    rw [Timer.fires_of_not_late hnot, hdeadline] at hruns
    rw [if_neg hzero]
    exact hruns

/-- **A timer fires on time exactly when** it is not a far timer whose deadline is the last tick of
a revolution. On time is `s + slots` for a delay of 0, and the deadline otherwise. -/
theorem fires_on_time_iff (slotsPerWheel levels : ℕ) (h : 0 < slotsPerWheel)
    (env : κ → World κ → List (Act κ)) (ops : List (Op κ)) (delay : ℕ) (callback : κ)
    (w w' : World κ) (t : Timer κ) (hw : w = run env (new slotsPerWheel levels) ops)
    (hs : w.schedule delay callback = .ok (t, w')) :
    (∀ more, (run env w' more).RunsAt t
        (if delay = 0 then w.wheel.now + w.wheel.slots else w.wheel.now + delay)) ↔
      ¬ (w.wheel.slots ≤ delay ∧ (w.wheel.now + delay) % w.wheel.slots = w.wheel.slots - 1) := by
  obtain ⟨hok, hcalls, -⟩ := ok_run slotsPerWheel levels h env ops
  rw [← hw] at hok hcalls
  obtain ⟨rfl, rfl⟩ := schedule_ok_iff.mp hs
  constructor
  · rintro hall ⟨hfar, hlast⟩
    have hpos := hok.pos
    have hne : delay ≠ 0 := by omega
    have hruns := hall [.advance (w.wheel.now + delay : ℕ)]
    rw [if_neg hne] at hruns
    exact hok.not_runsAt_deadline hcalls env callback hfar hlast hruns
  · exact hok.runsAt_onTime hcalls env callback

/-- On a wheel of 4 slots, a timer with delay 6 fires at 6, whatever follows. -/
theorem fires_on_time_iff_six :
    ∃ w', (new 4 1 : World Unit).schedule 6 () = .ok (⟨0, 6, 6, ()⟩, w') ∧
      ∀ more, (run (fun _ _ => []) w' more).RunsAt ⟨0, 6, 6, ()⟩ 6 := by
  obtain ⟨w', hw'⟩ : ∃ w', (new 4 1 : World Unit).schedule (6 : ℕ) () = .ok (⟨0, 6, 6, ()⟩, w') :=
    ⟨_, rfl⟩
  refine ⟨w', hw', ?_⟩
  exact (fires_on_time_iff 4 1 (by decide) (fun _ _ => []) [] 6 () _ w' _ rfl hw').mpr (by decide)

/-- A timer with delay 7 does not fire at 7: it is re-homed in the tick 7, when bucket 3 was
drained. -/
theorem seven_is_late :
    ¬ ∀ w', (new 4 1 : World Unit).schedule 7 () = .ok (⟨0, 7, 7, ()⟩, w') →
      ∀ more, (run (fun _ _ => []) w' more).RunsAt ⟨0, 7, 7, ()⟩ 7 := by
  intro hall
  have hruns := hall _ rfl [.advance 7]
  have hcall := hruns.2 (by decide) (by decide)
  exact absurd hcall (by decide)

end World

end DurableExecution
