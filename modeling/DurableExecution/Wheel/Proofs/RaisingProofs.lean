import DurableExecution.Wheel.Raising
import DurableExecution.Wheel.Proofs.InvariantProofs

/-!
# Proofs: callbacks that raise

A timer whose callback raises is counted out of the size by nobody, and so are the timers behind it.
The invariant counts them: the size is the number of timers on the wheel and of these.
-/

namespace DurableExecution

namespace Raising

open World

variable {κ : Type} {w : World κ} {t : Timer κ} {pending raisers dropped : List (Timer κ)}
  {env : Env κ}

/-- The invariant. Each timer that was ever scheduled is on the wheel, pending, cut off by an
exception, or gone. -/
structure Kept (w : World κ) (pending raisers dropped : List (Timer κ)) : Prop where
  pos : 0 < w.wheel.slots
  ids : ((w.timers (pending ++ (raisers ++ dropped))).map (·.id)).Perm (List.range w.created)
  size : w.wheel.size = (w.wheel.held.length + (pending ++ (raisers ++ dropped)).length : ℕ)
  once : (w.calls.map (·.timer.id)).Nodup
  called : ∀ c ∈ w.calls, c.timer ∈ raisers ∨ ∃ y ∈ w.turns, y.timer = c.timer
  ran : ∀ y ∈ w.turns, y.cancelled = false → ∃ n, RunsIn w y.timer n

/-- A timer that is on the wheel, pending or dropped has not run. -/
theorem Kept.not_called (h : Kept w pending raisers dropped)
    (ht : t ∈ w.wheel.held ∨ t ∈ pending ∨ t ∈ dropped) : ∀ c ∈ w.calls, c.timer.id ≠ t.id := by
  have hnodup := h.ids.nodup_iff.mpr List.nodup_range
  unfold timers at hnodup
  simp only [List.map_append, List.nodup_append, List.mem_append, List.mem_map] at hnodup
  intro c hc hid
  rcases h.called c hc with hr | ⟨y, hy, hyt⟩ <;> grind

/-- A timer that was dropped is not on the wheel. -/
theorem Kept.not_held (h : Kept w pending raisers dropped) (ht : t ∈ dropped) :
    t ∉ w.wheel.held := by
  have hnodup := h.ids.nodup_iff.mpr List.nodup_range
  unfold timers at hnodup
  simp only [List.map_append, List.nodup_append, List.mem_append, List.mem_map] at hnodup
  grind

/-- Nor has it had its turn. -/
theorem Kept.not_turn (h : Kept w pending raisers dropped) {y : Turn κ} (ht : y.timer ∈ dropped) :
    y ∉ w.turns := by
  have hnodup := h.ids.nodup_iff.mpr List.nodup_range
  unfold timers at hnodup
  simp only [List.map_append, List.nodup_append, List.mem_append, List.mem_map] at hnodup
  grind

/-! ## Turns -/

theorem Kept.act (h : Kept w pending raisers dropped) (a : Act κ) :
    Kept (w.act a) pending raisers dropped := by
  cases a with
  | schedule delay callback =>
    refine ⟨?_, ids_register h.pos h.ids delay callback, size_register h.pos h.size delay callback,
      h.once, h.called, h.ran⟩
    show 0 < (w.register delay callback).wheel.slots
    rw [slots_register]
    exact h.pos
  | setCancelled id cancelled => exact ⟨h.pos, h.ids, h.size, h.once, h.called, h.ran⟩

theorem Kept.acts (h : Kept w pending raisers dropped) (as : List (Act κ)) :
    Kept (as.foldl World.act w) pending raisers dropped := by
  induction as generalizing w with
  | nil => exact h
  | cons a as ih => exact ih (h.act a)

/-- The turn of the next timer begins. Until it is counted out, the timer is among those that were
cut off. -/
theorem Kept.begin (h : Kept w (t :: pending) raisers dropped) :
    Kept w pending (raisers ++ [t]) dropped := by
  have hmove : (pending ++ (raisers ++ [t] ++ dropped)).Perm
      (t :: pending ++ (raisers ++ dropped)) := by
    simp only [List.append_assoc, List.cons_append, List.nil_append]
    exact (List.perm_middle.append_left pending).trans List.perm_middle
  refine ⟨h.pos, ?_, ?_, h.once, ?_, h.ran⟩
  · have htimers := (hmove.append_right (w.turns.map (·.timer))).append_left w.wheel.held
    exact (htimers.map _).trans h.ids
  · rw [hmove.length_eq]
    exact h.size
  · intro c hc
    rcases h.called c hc with hr | hy
    · exact Or.inl (List.mem_append_left _ hr)
    · exact Or.inr hy

/-- Its callback is called. -/
theorem Kept.log (h : Kept w (t :: pending) raisers dropped) :
    Kept (w.logged t) pending (raisers ++ [t]) dropped := by
  have hbegin := h.begin
  refine ⟨hbegin.pos, hbegin.ids, hbegin.size, ?_, ?_, ?_⟩
  · show ((w.calls ++ [(⟨w.wheel.now, t⟩ : Call κ)]).map (·.timer.id)).Nodup
    rw [List.map_append, List.nodup_append]
    refine ⟨h.once, by simp, ?_⟩
    intro i hi j hj
    obtain ⟨c, hc, rfl⟩ := List.mem_map.mp hi
    obtain rfl := List.mem_singleton.mp hj
    exact h.not_called (Or.inr (Or.inl List.mem_cons_self)) c hc
  · intro c hc
    rcases List.mem_append.mp hc with hc | hc
    · exact hbegin.called c hc
    · obtain rfl := List.mem_singleton.mp hc
      exact Or.inl (List.mem_append_right _ List.mem_cons_self)
  · intro y hy hyc
    obtain ⟨n, hn⟩ := h.ran y hy hyc
    exact ⟨n, List.mem_append_left _ hn⟩

/-- The timer is counted out. -/
theorem Kept.countOut (h : Kept w pending (raisers ++ [t]) dropped) {cancelled : Bool}
    (hran : cancelled = false → ∃ n, RunsIn w t n) :
    Kept (countOut w t cancelled) pending raisers dropped := by
  have hmove : (pending ++ (raisers ++ [t] ++ dropped)).Perm
      (t :: (pending ++ (raisers ++ dropped))) := by
    simp only [List.append_assoc, List.cons_append, List.nil_append]
    exact (List.perm_middle.append_left pending).trans List.perm_middle
  refine ⟨h.pos, ?_, ?_, h.once, ?_, ?_⟩
  · -- the timer moves to the end of the turns
    have hlast := List.perm_append_singleton t (pending ++ (raisers ++ dropped) ++ w.turns.map (·.timer))
    have htimers : ((Raising.countOut w t cancelled).timers (pending ++ (raisers ++ dropped))).Perm
        (w.timers (pending ++ (raisers ++ [t] ++ dropped))) := by
      unfold timers Raising.countOut
      simp only [List.map_append, List.map_cons, List.map_nil]
      rw [← List.append_assoc (pending ++ (raisers ++ dropped))]
      exact (hlast.trans (hmove.symm.append_right _)).append_left w.wheel.held
    exact (htimers.map _).trans h.ids
  · have hsize := h.size
    rw [hmove.length_eq, List.length_cons] at hsize
    show w.wheel.size - 1 = (w.wheel.held.length + (pending ++ (raisers ++ dropped)).length : ℕ)
    omega
  · intro c hc
    rcases h.called c hc with hr | ⟨y, hy, hyt⟩
    · rcases List.mem_append.mp hr with hr | hr
      · exact Or.inl hr
      · refine Or.inr ⟨_, List.mem_append_right _ List.mem_cons_self, ?_⟩
        exact (List.mem_singleton.mp hr).symm
    · exact Or.inr ⟨y, List.mem_append_left _ hy, hyt⟩
  · intro y hy hyc
    rcases List.mem_append.mp hy with hy | hy
    · exact h.ran y hy hyc
    · obtain rfl := List.mem_singleton.mp hy
      exact hran hyc

/-- The timers that have not had their turns are dropped. -/
theorem Kept.drop (h : Kept w pending raisers dropped) : Kept w [] raisers (dropped ++ pending) := by
  have hmove : ([] ++ (raisers ++ (dropped ++ pending))).Perm (pending ++ (raisers ++ dropped)) := by
    rw [List.nil_append, ← List.append_assoc]
    exact List.perm_append_comm
  refine ⟨h.pos, ?_, ?_, h.once, h.called, h.ran⟩
  · have htimers := (hmove.append_right (w.turns.map (·.timer))).append_left w.wheel.held
    exact (htimers.map _).trans h.ids
  · rw [hmove.length_eq]
    exact h.size

/-! ## Ticks and operations -/

/-- What holds after a part of `advance` that ends, and what holds of an exception that leaves it. -/
def Leaves (P : World κ → Prop) (Q : Raised κ → Prop) : Except (Raised κ) (ℕ × World κ) → Prop
  | .ok (_, w) => P w
  | .error x => Q x

/-- What holds of an exception: the timer that raised and those behind it are cut off, and the other
due timers have had their turns. -/
structure CutOff (raisers dropped : List (Timer κ)) (x : Raised κ) : Prop where
  kept : Kept x.world [] (raisers ++ [x.timer]) (dropped ++ x.behind)
  due : ∀ t ∈ x.due, t = x.timer ∨ t ∈ x.behind ∨ ∃ y ∈ x.world.turns, y.timer = t
  behind : ∀ t ∈ x.behind, t ∈ x.due ∧ t ≠ x.timer

/-- The due timers are behind the timer whose turn it is, or have had their turns. When it is counted
out, it is one of these. -/
theorem due_countOut {due behind : List (Timer κ)}
    (hdue : ∀ u ∈ due, u ∈ t :: behind ∨ ∃ y ∈ w.turns, y.timer = u) {v : World κ}
    (hv : v.turns = w.turns) (cancelled : Bool) :
    ∀ u ∈ due, u ∈ behind ∨ ∃ y ∈ (Raising.countOut v t cancelled).turns, y.timer = u := by
  intro u hu
  unfold Raising.countOut
  simp only [hv]
  rcases hdue u hu with hu | ⟨y, hy, hyu⟩
  · rcases List.mem_cons.mp hu with rfl | hu
    · exact Or.inr ⟨_, List.mem_append_right _ List.mem_cons_self, rfl⟩
    · exact Or.inl hu
  · exact Or.inr ⟨y, List.mem_append_left _ hy, hyu⟩

/-- The callback raises. -/
theorem Kept.raised {due behind : List (Timer κ)} (h : Kept w (t :: behind) raisers dropped)
    (hdue : ∀ u ∈ due, u ∈ t :: behind ∨ ∃ y ∈ w.turns, y.timer = u)
    (hsub : ∀ u ∈ behind, u ∈ due) (as : List (Act κ)) :
    CutOff raisers dropped ⟨as.foldl World.act (w.logged t), due, t, behind⟩ := by
  have hframe := frame_acts (w.logged t) as
  have hacts := h.log.acts as
  refine ⟨hacts.drop, fun u hu => ?_, fun u hu => ⟨hsub u hu, ?_⟩⟩
  · rcases hdue u hu with hu | ⟨y, hy, hyu⟩
    · rcases List.mem_cons.mp hu with rfl | hu
      · exact Or.inl rfl
      · exact Or.inr (Or.inl hu)
    · exact Or.inr (Or.inr ⟨y, hframe.turns.symm ▸ hy, hyu⟩)
  · -- the timers behind it have not been called
    rintro rfl
    refine hacts.not_called (Or.inr (Or.inl hu)) ⟨w.wheel.now, u⟩ ?_ rfl
    rw [hframe.calls]
    exact List.mem_append_right _ List.mem_cons_self

theorem turns_leave (env : Env κ) {due behind : List (Timer κ)} (h : Kept w behind raisers dropped)
    (fired : ℕ) (hdue : ∀ t ∈ due, t ∈ behind ∨ ∃ y ∈ w.turns, y.timer = t)
    (hsub : ∀ t ∈ behind, t ∈ due) :
    Leaves (fun v => Kept v [] raisers dropped) (CutOff raisers dropped)
      (turns env due behind fired w) := by
  induction behind generalizing w fired with
  | nil => exact h
  | cons t behind ih =>
    have hsub' : ∀ u ∈ behind, u ∈ due := fun u hu => hsub u (List.mem_cons_of_mem t hu)
    rw [Raising.turns]
    split
    · exact ih (h.begin.countOut fun hc => by cases hc) fired (due_countOut hdue rfl true) hsub'
    · show Leaves _ _ (if (env t.callback (w.logged t)).2 = true then
        Except.error ⟨(env t.callback (w.logged t)).1.foldl World.act (w.logged t), due, t, behind⟩
        else Raising.turns env due behind (fired + 1)
          (Raising.countOut ((env t.callback (w.logged t)).1.foldl World.act (w.logged t)) t false))
      have hframe := frame_acts (w.logged t) (env t.callback (w.logged t)).1
      have hacts := h.log.acts (env t.callback (w.logged t)).1
      split
      · exact h.raised hdue hsub' _
      · have hrest := due_countOut hdue hframe.turns false
        refine ih (hacts.countOut fun _ => ⟨w.wheel.now, ?_⟩) (fired + 1) hrest hsub'
        unfold RunsIn
        rw [hframe.calls]
        exact List.mem_append_right _ List.mem_cons_self

theorem Kept.tick (h : Kept w [] raisers dropped) (env : Env κ) :
    Leaves (fun v => Kept v [] raisers dropped) (CutOff raisers dropped)
      (tick env { w with wheel := { w.wheel with now := w.wheel.now + 1 } }) := by
  set v : HierarchicalTimingWheel κ := { w.wheel with now := w.wheel.now + 1 } with hv
  have hdrain : Kept { w with wheel := v.drain.2 } v.drain.1 raisers dropped := by
    refine ⟨h.pos, ?_, ?_, h.once, h.called, h.ran⟩
    · exact ((timers_drain h.pos hv (raisers ++ dropped)).map _).trans h.ids
    · rw [List.length_append]
      exact size_drain h.pos hv h.size
  have hturns := turns_leave env hdrain 0 (fun _ ht => Or.inl ht) fun _ ht => ht
  unfold Raising.tick
  show Leaves _ _ (match Raising.turns env v.drain.1 v.drain.1 0 { w with wheel := v.drain.2 } with
    | .ok (fired, w) => .ok (fired, { w with wheel := w.wheel.endTick })
    | .error x => .error x)
  cases hr : Raising.turns env v.drain.1 v.drain.1 0 { w with wheel := v.drain.2 } with
  | error x =>
    rw [hr] at hturns
    exact hturns
  | ok r =>
    rw [hr] at hturns
    obtain ⟨fired, u⟩ := r
    have hu : Kept u [] raisers dropped := hturns
    obtain ⟨hslots, hnow, hsize⟩ := u.wheel.endTick_frame
    have hheld := HierarchicalTimingWheel.held_endTick hu.pos
    refine ⟨?_, ?_, ?_, hu.once, hu.called, hu.ran⟩
    · rw [hslots]
      exact hu.pos
    · exact ((hheld.append_right _).map _).trans hu.ids
    · rw [hsize, hu.size, hheld.length_eq]

theorem Kept.advanceLoop (h : Kept w [] raisers dropped) (env : Env κ) (target : ℤ) (n fired : ℕ) :
    Leaves (fun v => Kept v [] raisers dropped) (CutOff raisers dropped)
      (advanceLoop env target n fired w) := by
  induction n generalizing w fired with
  | zero => exact h
  | succ n ih =>
    unfold Raising.advanceLoop
    split
    · have htick := h.tick env
      split
      · next more v hv =>
        rw [hv] at htick
        exact ih htick (fired + more)
      · next x hx =>
        rw [hx] at htick
        exact htick
    · exact h

/-- **`advance`** keeps the invariant, whether it returns or an exception leaves it. -/
theorem Kept.advance (h : Kept w [] raisers dropped) (env : Env κ) (target : ℤ) :
    Leaves (fun v => Kept v [] raisers dropped) (CutOff raisers dropped) (advance env w target) :=
  h.advanceLoop env target _ 0

/-- The invariant between operations. -/
def State.Ok (s : State κ) : Prop := Kept s.world [] s.raisers s.dropped

/-- What one operation does: the world changes, or an exception of `advance` is caught. -/
inductive Does (env : Env κ) (s : State κ) : Op κ → State κ → Prop where
  | rejected {delay : ℤ} {callback : κ} : Does env s (.schedule delay callback) s
  | acted {o : Op κ} (a : Act κ) : Does env s o { s with world := s.world.act a }
  | advanced {target : ℤ} {fired : ℕ} {w : World κ} (h : advance env s.world target = .ok (fired, w)) :
      Does env s (.advance target) { s with world := w }
  | caught {target : ℤ} {x : Raised κ} (h : advance env s.world target = .error x) :
      Does env s (.advance target) (s.caught x)

theorem does_op (env : Env κ) (s : State κ) (o : Op κ) : Does env s o (op env s o) := by
  cases o with
  | schedule delay callback =>
    by_cases hd : delay < 0
    · simp only [op, World.schedule, if_pos hd]
      exact .rejected
    · simp only [op, World.schedule, if_neg hd]
      exact .acted (.schedule delay.toNat callback)
  | setCancelled id cancelled => exact .acted (.setCancelled id cancelled)
  | advance target =>
    cases hr : advance env s.world target with
    | ok r =>
      simp only [op, hr]
      exact .advanced hr
    | error x =>
      simp only [op, hr]
      exact .caught hr

theorem ok_op {s : State κ} (h : s.Ok) (o : Op κ) : (op env s o).Ok := by
  have hdoes := does_op env s o
  generalize Raising.op env s o = s' at hdoes
  cases hdoes with
  | rejected => exact h
  | acted a => exact Kept.act h a
  | @advanced target fired v hr =>
    have hadvance := Kept.advance h env target
    rw [hr] at hadvance
    exact hadvance
  | @caught target x hr =>
    have hadvance := Kept.advance h env target
    rw [hr] at hadvance
    exact hadvance.kept

theorem ok_run {s : State κ} (h : s.Ok) (ops : List (Op κ)) : (run env s ops).Ok := by
  induction ops generalizing s with
  | nil => exact h
  | cons o ops ih => exact ih (ok_op h o)

theorem ok_new (slotsPerWheel levels : ℕ) (h : 0 < slotsPerWheel) :
    (new slotsPerWheel levels : State κ).Ok := by
  have hw : (World.new slotsPerWheel levels : World κ).Ok := World.ok_new slotsPerWheel levels h
  refine ⟨hw.pos, hw.ids, hw.size, List.nodup_nil, ?_, ?_⟩
  · intro c hc
    cases hc
  · intro y hy
    cases hy

/-- What was dropped stays dropped. -/
theorem dropped_subset_run (env : Env κ) (s : State κ) (ops : List (Op κ)) :
    s.dropped ⊆ (run env s ops).dropped := by
  induction ops generalizing s with
  | nil => exact List.Subset.refl _
  | cons o ops ih =>
    refine List.Subset.trans ?_ (ih (op env s o))
    have hdoes := does_op env s o
    generalize op env s o = s' at hdoes
    cases hdoes with
    | caught hr => exact List.subset_append_left _ _
    | _ => exact List.Subset.refl _

/-! ## Callbacks that return -/

/-- Where no callback raises, `advance` is the one of the other modules. -/
theorem advance_of_returns (env : κ → World κ → List (Act κ)) (w : World κ) (target : ℤ) :
    advance (fun k v => (env k v, false)) w target = .ok (w.advance env target) := by
  have hturns : ∀ (due behind : List (Timer κ)) (fired : ℕ) (w : World κ),
      turns (fun k v => (env k v, false)) due behind fired w =
        .ok (behind.foldl (World.turn env) (fired, w)) := by
    intro due behind
    induction behind with
    | nil =>
      intro fired w
      rfl
    | cons t behind ih =>
      intro fired w
      rw [Raising.turns, List.foldl_cons]
      cases hc : w.cancelled t.id with
      | true =>
        rw [if_pos rfl, ih]
        simp only [World.turn, hc, countOut, if_true]
      | false =>
        rw [if_neg Bool.false_ne_true]
        simp only [World.turn, World.call, hc, countOut, Bool.false_eq_true, if_false, ih]
  have hloop : ∀ (n fired : ℕ) (w : World κ),
      advanceLoop (fun k v => (env k v, false)) target n fired w =
        .ok (World.advanceLoop env target n fired w) := by
    intro n
    induction n with
    | zero =>
      intro fired w
      rfl
    | succ n ih =>
      intro fired w
      rw [Raising.advanceLoop, World.advanceLoop]
      split
      · simp only [Raising.tick, World.tick, hturns, ih]
      · rfl
  exact hloop _ 0 w

/-! ## What an exception does to the wheel -/

variable {s : State κ} {x : Raised κ} {target : ℤ}

theorem cutOff_of_raised (h : s.Ok) (hx : advance env s.world target = .error x) :
    CutOff s.raisers s.dropped x := by
  have hadvance := Kept.advance h env target
  rw [hx] at hadvance
  exact hadvance

/-- The size is off by one for every timer that was cut off, now and earlier. -/
theorem size_raised (h : s.Ok) (hx : advance env s.world target = .error x) :
    x.world.wheel.size = x.world.wheel.held.length +
      ((s.raisers.length + 1) + (s.dropped.length + x.behind.length)) := by
  have hsize := (cutOff_of_raised h hx).kept.size
  simp only [List.nil_append, List.length_append, List.length_singleton] at hsize
  omega

/-- No timer runs twice. -/
theorem once_raised (h : s.Ok) (hx : advance env s.world target = .error x)
    (ops : List (Op κ)) : ((run env (s.caught x) ops).world.calls.map (·.timer.id)).Nodup := by
  have hcaught : (s.caught x).Ok := (cutOff_of_raised h hx).kept
  exact (ok_run hcaught ops).once

/-- A timer that was dropped is on no wheel and never runs. -/
theorem dropped_lost (env : Env κ) (h : s.Ok) (ht : t ∈ s.dropped) (ops : List (Op κ)) :
    t ∉ (run env s ops).world.wheel.held ∧ ∀ n, ¬ RunsIn (run env s ops).world t n := by
  have hrun : (run env s ops).Ok := ok_run h ops
  have hdropped := dropped_subset_run env s ops ht
  refine ⟨hrun.not_held hdropped, fun n hn => ?_⟩
  exact hrun.not_called (Or.inr (Or.inr hdropped)) _ hn rfl

/-- **The other due timers are kept exactly when** those behind the one that raised are all
cancelled. -/
theorem dueKept_iff (h : s.Ok) (hx : advance env s.world target = .error x) :
    DueKept env s x ↔ ∀ t ∈ x.behind, x.world.cancelled t.id = true := by
  have hcut := cutOff_of_raised h hx
  have hcaught : (s.caught x).Ok := hcut.kept
  constructor
  · intro hdue t ht
    have hmem : t ∈ (s.caught x).dropped := List.mem_append_right _ ht
    obtain ⟨hmemdue, hne⟩ := hcut.behind t ht
    rcases hdue t hmemdue hne with (⟨y, hy, rfl, -⟩ | hc) | ⟨n, hn⟩ | ⟨hheld, -⟩
    · exact absurd hy (hcut.kept.not_turn hmem)
    · exact hc
    · exact absurd hn ((dropped_lost env hcaught hmem []).2 n)
    · exact absurd hheld (hcut.kept.not_held hmem)
  · intro hall t ht hne
    rcases hcut.due t ht with heq | hb | ⟨y, hy, rfl⟩
    · exact absurd heq hne
    · exact Or.inl (Or.inr (hall t hb))
    · cases hc : y.cancelled with
      | true => exact Or.inl (Or.inl ⟨y, hy, rfl, hc⟩)
      | false => exact Or.inr (Or.inl (hcut.kept.ran y hy hc))

/-- **Every exception that leaves `advance` damages the wheel**: the timer that raised is off the
wheel, and the size counts it for ever. -/
theorem raised_damages (slotsPerWheel levels : ℕ) (h : 0 < slotsPerWheel) (env : Env κ)
    (ops : List (Op κ)) (target : ℤ) (x : Raised κ)
    (hx : advance env (run env (new slotsPerWheel levels) ops).world target = .error x) :
    ¬ Undamaged env target (run env (new slotsPerWheel levels) ops) x := by
  intro hundamaged
  have hok : (run env (new slotsPerWheel levels) ops).Ok := ok_run (ok_new slotsPerWheel levels h) ops
  have hsize := size_raised hok hx
  rw [hundamaged.size] at hsize
  omega

/-- The callback 1 raises, any other returns. -/
def oneRaises (k : ℕ) (_ : World ℕ) : List (Act ℕ) × Bool := ([], k = 1)

/-- Two timers are due in the tick, and the callback of the first one raises. -/
def raisesFirst : Raised ℕ :=
  match advance oneRaises (run oneRaises (new 4 1) [.schedule 1 1, .schedule 1 2]).world 1 with
  | .ok _ => ⟨.new 4 1, [], ⟨0, 0, 0, 0⟩, []⟩
  | .error x => x

theorem raised_damages_first :
    ¬ Undamaged oneRaises 1 (run oneRaises (new 4 1) [.schedule 1 1, .schedule 1 2]) raisesFirst :=
  raised_damages 4 1 (by decide) oneRaises [.schedule 1 1, .schedule 1 2] 1 raisesFirst rfl

/-- The size is 2 afterwards, and nothing is on the wheel. -/
theorem raisesFirst_not_undamaged :
    ¬ ∀ x, advance oneRaises (run oneRaises (new 4 1) [.schedule 1 1, .schedule 1 2]).world 1 =
      .error x → Undamaged oneRaises 1 (run oneRaises (new 4 1) [.schedule 1 1, .schedule 1 2]) x := by
  intro hall
  have hsize := (hall raisesFirst rfl).size
  exact absurd hsize (by decide)

end Raising

end DurableExecution
