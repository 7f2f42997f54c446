import DurableExecution.Engine.Proofs.CompletionProofs

/-!
# Proofs: a completed workflow resumes to the same answer

An execution that invokes no step function reads the history and nothing else, so it can be repeated
on any store with that history, in any world, by any engine. The last execution of a run is such a
one as long as the body hands back what an invoked step ends with: it may handle the report of a
different id, but it must not swallow `replay`.
-/

namespace DurableExecution

variable {σ ε α S : Type}

/-- The body hands back what a step ends with once its function was invoked: `replay`, and the
failure of a step function that fails. What it does with the report of a different id is left
open. -/
structure Workflow.HandsBack (w : Workflow σ ε α S) : Prop where
  replay : ∀ s stepId f k, w.next s = .step stepId f k →
    w.next (k (.error .replay)) = .ret (.error .replay)
  crash : ∀ s stepId f k world e, w.next s = .step stepId f k → (f world).1 = .error e →
    w.next (k (.error (.crash e))) = .ret (.error (.crash e))

/-- A body that propagates every error does. -/
theorem Propagating.handsBack (p : Propagating σ ε α S) : p.toWorkflow.HandsBack where
  replay := by
    rintro (s | e) stepId f k hs
    · cases hn : p.next s with
      | ret reply => simp [toWorkflow, hn] at hs
      | step id g j =>
        simp only [toWorkflow, hn, Action.step.injEq] at hs
        obtain ⟨-, -, rfl⟩ := hs
        rfl
    · cases hs
  crash := by
    rintro (s | e) stepId f k world failure hs -
    · cases hn : p.next s with
      | ret reply => simp [toWorkflow, hn] at hs
      | step id g j =>
        simp only [toWorkflow, hn, Action.step.injEq] at hs
        obtain ⟨-, -, rfl⟩ := hs
        rfl
    · cases hs

variable {w : Workflow σ ε α S} {port : Port} {engine : Engine} {wid : String}

/-- A call of `step` that does not invoke its function reads the history only. -/
theorem step_not_invoked {ctx : WorkflowContext α} {stepId : String} {f : StepFn σ ε α}
    {store : HistoryStore α} {world : σ} {r : Stepped σ ε α}
    (hr : ctx.step port engine stepId f store world = r) (hi : r.invoked = false) :
    r.store = store ∧ r.world = world ∧ ∀ engine' store' world',
      ctx.step port engine' stepId f store' world' = { r with store := store', world := world' } := by
  unfold WorkflowContext.step at hr ⊢
  cases hs : ctx.serve stepId with
  | some p =>
    simp only [hs] at hr ⊢
    subst hr
    exact ⟨rfl, rfl, fun _ _ _ => rfl⟩
  | none =>
    exfalso
    simp only [hs] at hr
    split at hr <;> (subst hr; cases hi)

/-- A call of `step` that invokes its function ends with `replay`, or with the failure. -/
theorem step_invoked {ctx : WorkflowContext α} {stepId : String} {f : StepFn σ ε α}
    {store : HistoryStore α} {world : σ} {r : Stepped σ ε α}
    (hr : ctx.step port engine stepId f store world = r) (hi : r.invoked = true) :
    r.reply = .error .replay ∨ ∃ e, r.reply = .error (.crash e) ∧ (f world).1 = .error e := by
  subst hr
  cases hs : (ctx.serve stepId : Option (Reply ε α × WorkflowContext α)) with
  | some p => simp [WorkflowContext.step, hs] at hi
  | none =>
    obtain ⟨reply, world', hf⟩ : ∃ reply world', f world = (reply, world') := ⟨_, _, rfl⟩
    cases reply with
    | error e => exact Or.inr ⟨e, by simp [WorkflowContext.step, hs, hf], by rw [hf]⟩
    | ok v => exact Or.inl (by simp [WorkflowContext.step, hs, hf])

/-- An execution that invokes no step function reads the history only. -/
theorem executes_not_invoked {s : S} {ctx : WorkflowContext α} {store : HistoryStore α} {world : σ}
    {x : Execution σ ε α} (hx : Executes w port engine s ctx store world x)
    (hi : invokedPositions x.calls = []) :
    x.store = store ∧ x.world = world ∧ ∀ engine' store' world',
      Executes w port engine' s ctx store' world'
        { x with store := store', world := world' } := by
  induction hx using Executes.induct with
  | ret hs hx =>
    refine ⟨rfl, rfl, fun engine' store' world' => ?_⟩
    exact (executes_ret_iff hs).mpr rfl
  | @step s ctx store world stepId f k r y hs hr hy hx ih =>
    have hri : r.invoked = false := by
      by_contra h
      simp [invokedPositions, h] at hi
    have hyi : invokedPositions y.calls = [] := by simpa [invokedPositions, hri] using hi
    obtain ⟨hrs, hrw, hr'⟩ := step_not_invoked hr hri
    obtain ⟨hys, hyw, hy'⟩ := ih hyi
    refine ⟨hys.trans hrs, hyw.trans hrw, fun engine' store' world' => ?_⟩
    exact (executes_step_iff hs (hr' engine' store' world')).mpr ⟨_, hy' engine' store' world', rfl⟩

/-- A body that hands back what an invoked step ends with returns a value only from an execution
that invoked nothing. -/
theorem not_invoked_of_ok (hw : w.HandsBack) {s : S} {ctx : WorkflowContext α} {store : HistoryStore α}
    {world : σ} {x : Execution σ ε α} (hx : Executes w port engine s ctx store world x) {v : α}
    (hv : x.reply = .ok v) : invokedPositions x.calls = [] := by
  induction hx using Executes.induct with
  | ret hs hx => rfl
  | @step s ctx store world stepId f k r y hs hr hy hx ih =>
    have hrest : invokedPositions y.calls = [] := ih hv
    cases hri : r.invoked with
    | false => simpa [invokedPositions, hri] using hrest
    | true =>
      -- the reply of an invoked step comes back as the reply of the execution
      exfalso
      have herr : ∃ e, w.next (k r.reply) = .ret (.error e) := by
        rcases step_invoked hr hri with hreply | ⟨e, hreply, hf⟩
        · rw [hreply]
          exact ⟨_, hw.replay s stepId f k hs⟩
        · rw [hreply]
          exact ⟨_, hw.crash s stepId f k world e hs hf⟩
      obtain ⟨e, he⟩ := herr
      have hret := (executes_ret_iff he).mp hy
      have hok : y.reply = .ok v := hv
      rw [hret] at hok
      cases hok

/-- The last execution of a run is an execution on the history that is stored at the end. -/
theorem last_execution (hw : w.HandsBack) {store : HistoryStore α} {world : σ} {o : Outcome σ ε α}
    (h : Loops w port wid engine store world o) {v : α} (hv : o.reply = .ok v) :
    ∃ x engine' world',
      Executes w port engine' w.start (.new wid (o.store.load wid)) o.store world' x ∧
      x.reply = .ok v ∧ invokedPositions x.calls = [] ∧ o.executions.getLast? = some x.calls := by
  induction h using Loops.induct with
  | @stop engine store world x hx hr =>
    have hi := not_invoked_of_ok hw hx hv
    obtain ⟨hst, -, -⟩ := executes_not_invoked hx hi
    refine ⟨x, engine, world, ?_, hv, hi, rfl⟩
    simpa only [hst] using hx
  | @again engine store world x o hx hr ho ih =>
    obtain ⟨y, engine', world', hy, hyv, hyi, hlast⟩ := ih hv
    refine ⟨y, engine', world', hy, hyv, hyi, ?_⟩
    cases hex : o.executions with
    | nil => simp [hex] at hlast
    | cons c cs => simpa [hex] using hlast

/-- **A completed workflow resumes to the same answer**: every later run on the same history returns
the value again and does nothing else. The value comes from an execution that recorded nothing. -/
theorem run_again (w : Workflow σ ε α S) (hw : w.HandsBack) (port : Port) (wid : String)
    (engine : Engine) (store : HistoryStore α) (world : σ) (o : Outcome σ ε α) (v : α)
    (ho : Runs w port wid engine store world o) (hv : o.reply = .ok v) :
    (∃ calls, o.executions.getLast? = some calls ∧ invokedPositions calls = []) ∧
    ∀ (engine' : Engine) (store' : HistoryStore α) (world' : σ),
      store'.load wid = o.store.load wid →
      ∃ o', Runs w port wid engine' store' world' o' ∧ o'.reply = .ok v ∧ o'.invoked = [] ∧
        o'.store = store' ∧ o'.world = world' ∧ o'.engine.replays = engine'.replays := by
  obtain ⟨x, engine₁, world₁, hx, hxv, hxi, hlast⟩ := last_execution hw (runs_iff.mp ho) hv
  refine ⟨⟨x.calls, hlast, hxi⟩, fun engine' store' world' hload => ?_⟩
  obtain ⟨-, -, hany⟩ := executes_not_invoked hx hxi
  have hx' : Executes w port { engine' with wid } w.start (.new wid (store'.load wid)) store' world'
      { x with store := store', world := world' } := by
    rw [hload]
    exact hany _ _ _
  have hr : x.reply ≠ .error .replay := by
    rw [hxv]
    simp
  refine ⟨_, runs_iff.mpr (loops_iff.mpr ⟨_, hx', Or.inr ⟨hr, rfl⟩⟩), hxv, ?_, rfl, rfl, rfl⟩
  simpa [Outcome.invoked] using hxi

/-- A body that answers the report of a different id with a default, and hands back every other
error. -/
def chargeOrSkip : Workflow ℕ Empty ℕ (Option (Reply Empty ℕ)) where
  start := none
  next
    | none => .step "charge" (fun n => (.ok n, n + 1)) some
    | some (.error (.nonDeterministic _)) => .ret (.ok 0)
    | some reply => .ret reply

theorem chargeOrSkip_handsBack : chargeOrSkip.HandsBack where
  replay := by
    rintro (_ | reply) stepId f k hs
    · cases hs
      rfl
    · rcases reply with (_ | _ | _) | _ <;> cases hs
  crash := fun _ _ _ _ _ e => e.elim

/-- On the history of another workflow it completes with its default, and does so again in another
world. -/
theorem run_again_skipped :
    ∃ o, Runs chargeOrSkip .rust "order-1" ⟨"", 0⟩
        (HistoryStore.new.save "order-1" [⟨0, "reserve", 5⟩]) 100 o ∧ o.reply = .ok 0 ∧
      ∃ o', Runs chargeOrSkip .rust "order-1" ⟨"", 3⟩ o.store 500 o' ∧ o'.reply = .ok 0 ∧
        o'.invoked = [] ∧ o'.engine.replays = 3 := by
  obtain ⟨o, ho, hv⟩ : ∃ o, Runs chargeOrSkip .rust "order-1" ⟨"", 0⟩
      (HistoryStore.new.save "order-1" [⟨0, "reserve", 5⟩]) 100 o ∧ o.reply = .ok 0 :=
    ⟨_, ⟨3, rfl⟩, rfl⟩
  obtain ⟨-, hall⟩ := run_again chargeOrSkip chargeOrSkip_handsBack .rust "order-1" ⟨"", 0⟩
    (HistoryStore.new.save "order-1" [⟨0, "reserve", 5⟩]) 100 o 0 ho hv
  obtain ⟨o', ho', hv', hi', -, -, hr'⟩ := hall ⟨"", 3⟩ o.store 500 rfl
  exact ⟨o, ho, hv, o', ho', hv', hi', hr'⟩

/-- A body that answers every error of its step with a default, `replay` included. -/
def chargeOrDefault : Workflow Unit Empty ℕ (Option (Reply Empty ℕ)) where
  start := none
  next
    | none => .step "charge" (fun world => (.ok 100, world)) some
    | some (.ok v) => .ret (.ok v)
    | some (.error _) => .ret (.ok 0)

/-- Such a body completes with its default, and with the recorded result the next time. -/
theorem chargeOrDefault_changes :
    ¬ ∀ o v, Runs chargeOrDefault .rust "order-1" ⟨"", 0⟩ .new () o → o.reply = .ok v →
      ∃ o', Runs chargeOrDefault .rust "order-1" ⟨"", 0⟩ o.store () o' ∧ o'.reply = .ok v := by
  intro hall
  have hfirst : Runs chargeOrDefault .rust "order-1" ⟨"", 0⟩ .new ()
      ⟨.ok 0, ⟨"order-1", 0⟩, HistoryStore.new.save "order-1" [⟨0, "charge", 100⟩], (),
        [[⟨"charge", 0, true, .error .replay⟩]]⟩ := ⟨3, rfl⟩
  have hsecond : Runs chargeOrDefault .rust "order-1" ⟨"", 0⟩
      (HistoryStore.new.save "order-1" [⟨0, "charge", 100⟩]) ()
      ⟨.ok 100, ⟨"order-1", 0⟩, HistoryStore.new.save "order-1" [⟨0, "charge", 100⟩], (),
        [[⟨"charge", 0, false, .ok 100⟩]]⟩ := ⟨3, rfl⟩
  obtain ⟨o', ho', hv'⟩ := hall _ 0 hfirst rfl
  rw [ho'.unique hsecond] at hv'
  cases hv'

end DurableExecution
