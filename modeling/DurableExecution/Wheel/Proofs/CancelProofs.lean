import Mathlib.Data.Set.Insert
import DurableExecution.Wheel.Proofs.FiringProofs

/-!
# Proofs: cancellation does not interfere with other timers

Two runs of the wheel that differ only in the flags of the timers of a set `C`. The wheel itself is
the same in both after every operation: a cancelled timer takes its turn like any other, and only
its callback is left out.
-/

namespace DurableExecution

variable {κ : Type}

/-- The act sets a flag. -/
def Act.IsFlag : Act κ → Prop
  | .schedule _ _ => False
  | .setCancelled _ _ => True

section Outside

variable (C : Set ℕ) [DecidablePred (· ∈ C)]

/-- The act is not about the flag of a timer of `C`. -/
def Act.outside : Act κ → Bool
  | .schedule _ _ => true
  | .setCancelled id _ => id ∉ C

def Op.outside : World.Op κ → Bool
  | .setCancelled id _ => id ∉ C
  | _ => true

namespace World

/-- The calls of the callbacks of timers outside `C`. -/
def callsOutside (w : World κ) : List (Call κ) := w.calls.filter fun c => c.timer.id ∉ C

/-- How many callbacks of timers of `C` have run. -/
def ranWithin (w : World κ) : ℕ := (w.calls.filter fun c => c.timer.id ∈ C).length

/-- Two worlds that differ only in the timers of `C` that are cancelled, and in those that have
run. -/
structure SameBut (w₁ w₂ : World κ) : Prop where
  wheel : w₁.wheel = w₂.wheel
  created : w₁.created = w₂.created
  flags : ∀ id, id ∉ C → w₁.cancelled id = w₂.cancelled id
  calls : w₁.callsOutside C = w₂.callsOutside C

/-- The callbacks do not touch the wheel, and set flags outside `C` in the same way in worlds that
differ only in `C`. -/
structure OnlyFlagsOf (env₁ env₂ : κ → World κ → List (Act κ)) : Prop where
  flags₁ : ∀ k w, ∀ a ∈ env₁ k w, a.IsFlag
  flags₂ : ∀ k w, ∀ a ∈ env₂ k w, a.IsFlag
  same : ∀ w₁ w₂ (t : Timer κ), t.id ∉ C → SameBut C w₁ w₂ →
    (env₁ t.callback (w₁.logged t)).filter (Act.outside C) =
      (env₂ t.callback (w₂.logged t)).filter (Act.outside C)
  within₁ : ∀ (w : World κ) (t : Timer κ), t.id ∈ C → (env₁ t.callback (w.logged t)).filter (Act.outside C) = []
  within₂ : ∀ (w : World κ) (t : Timer κ), t.id ∈ C → (env₂ t.callback (w.logged t)).filter (Act.outside C) = []

end World

end Outside

namespace World

variable {C : Set ℕ} [DecidablePred (· ∈ C)] {w w₁ w₂ w₃ : World κ}
  {env₁ env₂ : κ → World κ → List (Act κ)}

theorem SameBut.refl (w : World κ) : SameBut C w w := ⟨rfl, rfl, fun _ _ => rfl, rfl⟩

theorem SameBut.symm (h : SameBut C w₁ w₂) : SameBut C w₂ w₁ :=
  ⟨h.wheel.symm, h.created.symm, fun id hid => (h.flags id hid).symm, h.calls.symm⟩

theorem SameBut.trans (h : SameBut C w₁ w₂) (h' : SameBut C w₂ w₃) : SameBut C w₁ w₃ :=
  ⟨h.wheel.trans h'.wheel, h.created.trans h'.created,
    fun id hid => (h.flags id hid).trans (h'.flags id hid), h.calls.trans h'.calls⟩

/-! ## Flags -/

/-- Setting one flag in both worlds. -/
theorem SameBut.setCancelled (h : SameBut C w₁ w₂) (id : ℕ) (cancelled : Bool) :
    SameBut C (w₁.setCancelled id cancelled) (w₂.setCancelled id cancelled) := by
  refine ⟨h.wheel, h.created, fun other hother => ?_, h.calls⟩
  show Function.update w₁.cancelled id cancelled other = Function.update w₂.cancelled id cancelled other
  by_cases heq : other = id
  · rw [heq, Function.update_self, Function.update_self]
  · rw [Function.update_of_ne heq, Function.update_of_ne heq]
    exact h.flags other hother

/-- Setting the flag of a timer of `C`. -/
theorem sameBut_setCancelled {id : ℕ} (hid : id ∈ C) (cancelled : Bool) :
    SameBut C (w.setCancelled id cancelled) w := by
  refine ⟨rfl, rfl, fun other hother => ?_, rfl⟩
  have hne : other ≠ id := by
    rintro rfl
    exact hother hid
  exact Function.update_of_ne hne cancelled w.cancelled

/-- Of a list of acts that set flags, those about timers of `C` make no difference. -/
theorem sameBut_acts {as : List (Act κ)} (has : ∀ a ∈ as, a.IsFlag) (w : World κ) :
    SameBut C (as.foldl act w) ((as.filter (Act.outside C)).foldl act w) := by
  suffices h : ∀ w₁ w₂ : World κ, SameBut C w₁ w₂ →
      SameBut C (as.foldl act w₁) ((as.filter (Act.outside C)).foldl act w₂) from h w w (.refl w)
  induction as with
  | nil => exact fun w₁ w₂ h => h
  | cons a as ih =>
    intro w₁ w₂ h
    have hrest := ih fun b hb => has b (List.mem_cons_of_mem a hb)
    cases a with
    | schedule delay callback => exact (has _ List.mem_cons_self).elim
    | setCancelled id cancelled =>
      by_cases hid : id ∈ C
      · rw [List.filter_cons_of_neg (by simpa [Act.outside] using hid)]
        exact hrest _ _ ((sameBut_setCancelled hid cancelled).trans h)
      · rw [List.filter_cons_of_pos (by simpa [Act.outside] using hid)]
        exact hrest _ _ (h.setCancelled id cancelled)

theorem SameBut.acts (h : SameBut C w₁ w₂) {as : List (Act κ)} (has : ∀ a ∈ as, a.IsFlag) :
    SameBut C (as.foldl act w₁) (as.foldl act w₂) := by
  induction as generalizing w₁ w₂ with
  | nil => exact h
  | cons a as ih =>
    refine ih ?_ fun b hb => has b (List.mem_cons_of_mem a hb)
    cases a with
    | schedule delay callback => exact (has _ List.mem_cons_self).elim
    | setCancelled id cancelled => exact h.setCancelled id cancelled

/-! ## Turns and ticks -/

theorem SameBut.logged (h : SameBut C w₁ w₂) (t : Timer κ) :
    SameBut C (w₁.logged t) (w₂.logged t) := by
  refine ⟨h.wheel, h.created, h.flags, ?_⟩
  have hcalls := h.calls
  unfold callsOutside at hcalls ⊢
  unfold World.logged
  simp only [List.filter_append, hcalls, h.wheel]

/-- Whether the callback of a timer of `C` runs makes no difference. -/
theorem sameBut_called (env : κ → World κ → List (Act κ)) {t : Timer κ}
    (hflags : ∀ k w, ∀ a ∈ env k w, a.IsFlag)
    (hwithin : (env t.callback (w.logged t)).filter (Act.outside C) = []) (ht : t.id ∈ C) :
    SameBut C (called env w t) w := by
  unfold called
  split
  · exact .refl w
  · have hacts := sameBut_acts (C := C) (hflags t.callback (w.logged t)) (w.logged t)
    rw [hwithin] at hacts
    refine hacts.trans ⟨rfl, rfl, fun _ _ => rfl, ?_⟩
    unfold callsOutside World.logged
    simp [List.filter_append, ht]

/-- A timer outside `C` runs in both worlds or in none. -/
theorem SameBut.called (h : SameBut C w₁ w₂) (henv : OnlyFlagsOf C env₁ env₂) (t : Timer κ) :
    SameBut C (called env₁ w₁ t) (called env₂ w₂ t) := by
  by_cases ht : t.id ∈ C
  · have h₁ := sameBut_called env₁ henv.flags₁ (henv.within₁ w₁ t ht) ht
    have h₂ := sameBut_called env₂ henv.flags₂ (henv.within₂ w₂ t ht) ht
    exact h₁.trans (h.trans h₂.symm)
  · unfold World.called
    rw [h.flags t.id ht]
    split
    · exact h
    · have h₁ := sameBut_acts (C := C) (henv.flags₁ t.callback (w₁.logged t)) (w₁.logged t)
      have h₂ := sameBut_acts (C := C) (henv.flags₂ t.callback (w₂.logged t)) (w₂.logged t)
      rw [henv.same w₁ w₂ t ht h] at h₁
      have hleft : ∀ a ∈ (env₂ t.callback (w₂.logged t)).filter (Act.outside C), a.IsFlag :=
        fun a ha => henv.flags₂ _ _ a (List.mem_of_mem_filter ha)
      exact h₁.trans (((h.logged t).acts hleft).trans h₂.symm)

theorem SameBut.turn (h : SameBut C w₁ w₂) (henv : OnlyFlagsOf C env₁ env₂) (t : Timer κ)
    (fired₁ fired₂ : ℕ) :
    SameBut C (turn env₁ (fired₁, w₁) t).2 (turn env₂ (fired₂, w₂) t).2 := by
  have hc := h.called henv t
  rw [turn_eq, turn_eq]
  refine ⟨?_, hc.created, hc.flags, hc.calls⟩
  simp only [hc.wheel]

theorem SameBut.turns (h : SameBut C w₁ w₂) (henv : OnlyFlagsOf C env₁ env₂) (due : List (Timer κ))
    (fired₁ fired₂ : ℕ) :
    SameBut C (due.foldl (World.turn env₁) (fired₁, w₁)).2
      (due.foldl (World.turn env₂) (fired₂, w₂)).2 := by
  induction due generalizing w₁ w₂ fired₁ fired₂ with
  | nil => exact h
  | cons t due ih => exact ih (h.turn henv t fired₁ fired₂) _ _

theorem SameBut.round (h : SameBut C w₁ w₂) (henv : OnlyFlagsOf C env₁ env₂) :
    SameBut C (round env₁ w₁).2 (round env₂ w₂).2 := by
  set v : HierarchicalTimingWheel κ := { w₁.wheel with now := w₁.wheel.now + 1 } with hv
  have hv₂ : v = { w₂.wheel with now := w₂.wheel.now + 1 } := by
    rw [hv, h.wheel]
  have hdrain : SameBut C { w₁ with wheel := v.drain.2 } { w₂ with wheel := v.drain.2 } :=
    ⟨rfl, h.created, h.flags, h.calls⟩
  have hturns := hdrain.turns henv v.drain.1 0 0
  rw [round_eq env₁ w₁ hv rfl, round_eq env₂ w₂ hv₂ rfl]
  exact ⟨congrArg HierarchicalTimingWheel.endTick hturns.wheel, hturns.created, hturns.flags,
    hturns.calls⟩

theorem SameBut.advanceLoop (h : SameBut C w₁ w₂) (henv : OnlyFlagsOf C env₁ env₂) (target : ℤ)
    (n fired₁ fired₂ : ℕ) :
    SameBut C (advanceLoop env₁ target n fired₁ w₁).2 (advanceLoop env₂ target n fired₂ w₂).2 := by
  induction n generalizing w₁ w₂ fired₁ fired₂ with
  | zero => exact h
  | succ n ih =>
    rw [advanceLoop_succ, advanceLoop_succ, h.wheel]
    split
    · exact ih (h.round henv) _ _
    · exact h

theorem SameBut.advance (h : SameBut C w₁ w₂) (henv : OnlyFlagsOf C env₁ env₂) (target : ℤ) :
    SameBut C (w₁.advance env₁ target).2 (w₂.advance env₂ target).2 := by
  unfold World.advance
  rw [h.wheel]
  exact h.advanceLoop henv target _ 0 0

/-! ## Runs -/

theorem OnlyFlagsOf.right (henv : OnlyFlagsOf C env₁ env₂) : OnlyFlagsOf C env₂ env₂ where
  flags₁ := henv.flags₂
  flags₂ := henv.flags₂
  same := by
    intro w₁ w₂ t ht h
    rw [← henv.same w₁ w₂ t ht h, ← henv.same w₁ w₁ t ht (.refl w₁)]
  within₁ := henv.within₂
  within₂ := henv.within₂

theorem SameBut.register (h : SameBut C w₁ w₂) (delay : ℕ) (callback : κ) :
    SameBut C (w₁.register delay callback) (w₂.register delay callback) := by
  have hnext : w₁.nextTimer delay callback = w₂.nextTimer delay callback := by
    unfold nextTimer
    rw [h.wheel, h.created]
  refine ⟨?_, ?_, ?_, h.calls⟩
  · unfold World.register
    simp only [hnext, h.wheel]
  · show w₁.created + 1 = w₂.created + 1
    rw [h.created]
  · intro id hid
    show Function.update w₁.cancelled w₁.created false id = _
    rw [h.created]
    exact (h.setCancelled w₂.created false).flags id hid

theorem SameBut.op (h : SameBut C w₁ w₂) (henv : OnlyFlagsOf C env₁ env₂) (o : Op κ) :
    SameBut C (op env₁ w₁ o) (op env₂ w₂ o) := by
  cases o with
  | schedule delay callback =>
    by_cases hd : delay < 0
    · rw [op_schedule_of_neg env₁ w₁ callback hd, op_schedule_of_neg env₂ w₂ callback hd]
      exact h
    · rw [op_schedule_of_nonneg env₁ w₁ callback hd, op_schedule_of_nonneg env₂ w₂ callback hd]
      exact h.register delay.toNat callback
  | setCancelled id cancelled => exact h.setCancelled id cancelled
  | advance target => exact h.advance henv target

/-- Leaving out the operations that set flags of `C` makes no difference. -/
theorem SameBut.run_filter (h : SameBut C w₁ w₂) (henv : OnlyFlagsOf C env₁ env₂) (ops : List (Op κ)) :
    SameBut C (run env₁ w₁ ops) (run env₂ w₂ (ops.filter (Op.outside C))) := by
  induction ops generalizing w₁ w₂ with
  | nil => exact h
  | cons o ops ih =>
    by_cases ho : Op.outside C o = true
    · rw [List.filter_cons_of_pos ho]
      exact ih (h.op henv o)
    · rw [List.filter_cons_of_neg ho]
      cases o with
      | schedule delay callback => exact absurd rfl ho
      | advance target => exact absurd rfl ho
      | setCancelled id cancelled =>
        have hid : id ∈ C := by simpa [Op.outside] using ho
        exact ih ((sameBut_setCancelled hid cancelled).trans h)

theorem SameBut.run (h : SameBut C w₁ w₂) (henv : OnlyFlagsOf C env₁ env₂) {ops₁ ops₂ : List (Op κ)}
    (hops : ops₁.filter (Op.outside C) = ops₂.filter (Op.outside C)) :
    SameBut C (run env₁ w₁ ops₁) (run env₂ w₂ ops₂) := by
  have h₁ := h.run_filter henv ops₁
  rw [hops] at h₁
  exact h₁.trans ((SameBut.refl w₂).run_filter henv.right ops₂).symm

/-! ## What the callers see -/

/-- What `advance` returns, split into the callbacks of timers of `C` and the others. -/
theorem Ok.fired_split (hw : w.Ok) (env : κ → World κ → List (Act κ)) (target : ℤ) :
    ∃ new : List (Call κ), (w.advance env target).2.calls = w.calls ++ new ∧
      (w.advance env target).1 = (new.filter fun c => c.timer.id ∉ C).length +
        (new.filter fun c => c.timer.id ∈ C).length := by
  obtain ⟨-, -, new, hev, hfired⟩ := hw.advance env target
  refine ⟨callsIn new, hev.calls, ?_⟩
  have hsplit := (callsIn new).length_eq_length_filter_add fun c => decide (c.timer.id ∈ C)
  simp only [← decide_not] at hsplit
  omega

/-- A timer that is cancelled at its turn has not run. -/
theorem Ok.not_called_of_cancelled (hw : w.Ok) (hcalls : w.calls = callsIn w.turns) {x : Turn κ}
    (hx : x ∈ w.turns) (hc : x.cancelled = true) : ∀ c ∈ w.calls, c.timer.id ≠ x.timer.id := by
  intro c hmem hid
  rw [hcalls] at hmem
  obtain ⟨y, hy, rfl⟩ := List.mem_map.mp hmem
  obtain ⟨hy, hycan⟩ := List.mem_filter.mp hy
  have hone : y ∈ w.turns.filter fun z => z.timer.id = x.timer.id :=
    List.mem_filter.mpr ⟨hy, decide_eq_true hid⟩
  rw [hw.filter_turns hx] at hone
  obtain rfl := List.mem_singleton.mp hone
  rw [hc] at hycan
  cases hycan

/-- **Cancellation does not interfere with other timers.** -/
theorem cancel_does_not_interfere (slotsPerWheel levels : ℕ) (h : 0 < slotsPerWheel) (C : Set ℕ)
    [DecidablePred (· ∈ C)] (env₁ env₂ : κ → World κ → List (Act κ)) (henv : OnlyFlagsOf C env₁ env₂)
    (ops₁ ops₂ : List (Op κ)) (hops : ops₁.filter (Op.outside C) = ops₂.filter (Op.outside C))
    (w₁ w₂ : World κ) (hw₁ : w₁ = run env₁ (new slotsPerWheel levels) ops₁)
    (hw₂ : w₂ = run env₂ (new slotsPerWheel levels) ops₂) :
    w₁.wheel = w₂.wheel ∧ w₁.callsOutside C = w₂.callsOutside C ∧
      (∀ target fired₁ fired₂ v₁ v₂, w₁.advance env₁ target = (fired₁, v₁) →
        w₂.advance env₂ target = (fired₂, v₂) →
        ∃ others within₁ within₂, fired₁ = others + within₁ ∧ fired₂ = others + within₂ ∧
          v₁.ranWithin C = w₁.ranWithin C + within₁ ∧ v₂.ranWithin C = w₂.ranWithin C + within₂) ∧
      ∀ x ∈ w₁.turns, x.timer.id ∈ C → x.cancelled = true →
        ∀ c ∈ w₁.calls, c.timer.id ≠ x.timer.id := by
  obtain ⟨hok₁, hcalls₁, -⟩ := ok_run slotsPerWheel levels h env₁ ops₁
  obtain ⟨hok₂, -, -⟩ := ok_run slotsPerWheel levels h env₂ ops₂
  have hsame := (SameBut.refl (C := C) (new slotsPerWheel levels)).run henv hops
  rw [← hw₁] at hok₁ hcalls₁ hsame
  rw [← hw₂] at hok₂ hsame
  refine ⟨hsame.wheel, hsame.calls, ?_, fun x hx _ hc => hok₁.not_called_of_cancelled hcalls₁ hx hc⟩
  intro target fired₁ fired₂ v₁ v₂ h₁ h₂
  obtain ⟨new₁, hnew₁, hfired₁⟩ := hok₁.fired_split (C := C) env₁ target
  obtain ⟨new₂, hnew₂, hfired₂⟩ := hok₂.fired_split (C := C) env₂ target
  have hafter := (hsame.advance henv target).calls
  rw [h₁] at hnew₁ hfired₁ hafter
  rw [h₂] at hnew₂ hfired₂ hafter
  have hothers : (new₁.filter fun c => c.timer.id ∉ C) = new₂.filter fun c => c.timer.id ∉ C := by
    have hbefore := hsame.calls
    unfold callsOutside at hbefore hafter
    rw [hnew₁, hnew₂, List.filter_append, List.filter_append, hbefore] at hafter
    exact List.append_cancel_left hafter
  rw [← hothers] at hfired₂
  refine ⟨_, _, _, hfired₁, hfired₂, ?_, ?_⟩
  · unfold ranWithin
    rw [hnew₁, List.filter_append, List.length_append]
  · unfold ranWithin
    rw [hnew₂, List.filter_append, List.length_append]

/-- Cancelling the first of two timers with the deadline 3 before its turn. -/
theorem cancel_does_not_interfere_three :
    (run (fun _ _ => []) (new 4 1 : World Unit)
        [.schedule 3 (), .schedule 3 (), .setCancelled 0 true, .advance 3]).wheel =
      (run (fun _ _ => []) (new 4 1) [.schedule 3 (), .schedule 3 (), .advance 3]).wheel := by
  have henv : OnlyFlagsOf ({0} : Set ℕ) (fun (_ : Unit) _ => []) (fun _ _ => []) :=
    ⟨fun _ _ _ ha => absurd ha List.not_mem_nil, fun _ _ _ ha => absurd ha List.not_mem_nil,
      fun _ _ _ _ _ => rfl, fun _ _ _ => rfl, fun _ _ _ => rfl⟩
  exact (cancel_does_not_interfere 4 1 (by decide) {0} (fun _ _ => []) (fun _ _ => []) henv
    [.schedule 3 (), .schedule 3 (), .setCancelled 0 true, .advance 3]
    [.schedule 3 (), .schedule 3 (), .advance 3] rfl _ _ rfl rfl).1

end World

end DurableExecution
