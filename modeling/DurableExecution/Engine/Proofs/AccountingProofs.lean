import DurableExecution.Engine.Proofs.ShapeProofs

/-!
# Proofs: termination and replay accounting

A run of a script ends on every stored history, also on one that another workflow has written. Each
execution of the body but the last records one step, and the last records none, so `replays` grows
by the number of the events that the call has appended.
-/

namespace DurableExecution

variable {σ ε α S : Type}

/-- One execution of the body within a run, and the store it started from. -/
structure Pass (σ ε α : Type) where
  before : HistoryStore α
  execution : Execution σ ε α

/-- The execution invoked `n` step functions, and appended `n` events to the history of `wid`. -/
def Pass.Records (p : Pass σ ε α) (wid : String) (n : ℕ) : Prop :=
  (p.execution.calls.filter (·.invoked)).length = n ∧
    ∃ new, new.length = n ∧ p.execution.store.load wid = p.before.load wid ++ new

/-- The loop of `run` executes the body as the passes say, each from what the one before it has
left, and ends with the outcome. -/
inductive Passes (w : Workflow σ ε α S) (port : Port) (wid : String) :
    Engine → HistoryStore α → σ → List (Pass σ ε α) → Outcome σ ε α → Prop where
  | last {engine : Engine} {store : HistoryStore α} {world : σ} {x : Execution σ ε α}
      (hx : Executes w port engine w.start (.new wid (store.load wid)) store world x)
      (hr : x.reply ≠ .error .replay) :
      Passes w port wid engine store world [⟨store, x⟩] ⟨x.reply, engine, x.store, x.world, [x.calls]⟩
  | again {engine : Engine} {store : HistoryStore α} {world : σ} {x : Execution σ ε α}
      {ps : List (Pass σ ε α)} {o : Outcome σ ε α}
      (hx : Executes w port engine w.start (.new wid (store.load wid)) store world x)
      (hr : x.reply = .error .replay)
      (hps : Passes w port wid { engine with replays := engine.replays + 1 } x.store x.world ps o) :
      Passes w port wid engine store world (⟨store, x⟩ :: ps)
        { o with executions := x.calls :: o.executions }

variable {port : Port} {wid : String} {engine : Engine}

/-- The loop ends exactly when it has executed the body some number of times. -/
theorem loops_iff_passes {w : Workflow σ ε α S} {store : HistoryStore α} {world : σ}
    {o : Outcome σ ε α} :
    Loops w port wid engine store world o ↔ ∃ ps, Passes w port wid engine store world ps o := by
  constructor
  · intro h
    induction h using Loops.induct with
    | stop x hx hr => exact ⟨_, .last hx hr⟩
    | again x hx hr ho ih =>
      obtain ⟨ps, hps⟩ := ih
      exact ⟨_, .again hx hr hps⟩
  · rintro ⟨ps, hps⟩
    induction hps with
    | last hx hr => exact loops_iff.mpr ⟨_, hx, Or.inr ⟨hr, rfl⟩⟩
    | again hx hr _ ih => exact loops_iff.mpr ⟨_, hx, Or.inl ⟨hr, _, ih, rfl⟩⟩

namespace Script

variable {w : Script σ ε α}

theorem OwnErrors.ret_ne {reply : Reply ε α} (h : (ret reply : Script σ ε α).OwnErrors (· ≠ .replay)) :
    reply ≠ .error .replay := by
  rintro rfl
  exact h rfl

/-- The loop ends, whoever wrote the history. -/
theorem loops (hown : w.OwnErrors (· ≠ .replay)) (he : engine.wid = wid) (store : HistoryStore α)
    (world : σ) : ∃ o, Loops w.toWorkflow port wid engine store world o := by
  rcases w.body.feed_cases w.body.start (store.load wid) with
    ⟨left, hf⟩ | ⟨i, left, hi, hf, ⟨reply, hs⟩ | ⟨stepId, f, k, hs, hid⟩⟩
  · obtain ⟨o, -, ho, -⟩ := completes left (hown.feed w.body rfl hf) he store world hf
    exact ⟨o, ho⟩
  · have hr : reply ≠ .error .replay := by
      obtain rfl := eq_ret_of_next hs
      exact (hown.feed w.body rfl hf).ret_ne
    have hx := executes_returned port engine wid store world hi.le hf hs
    exact ⟨_, loops_iff.mpr ⟨_, hx, Or.inr ⟨hr, rfl⟩⟩⟩
  · have hx := executes_mismatch port engine wid store world hi hf hs hid
    exact ⟨_, loops_iff.mpr ⟨_, hx, Or.inr ⟨by simp, rfl⟩⟩⟩

/-- An execution that is followed by another one has recorded a step. -/
theorem records_of_replay (hown : w.OwnErrors (· ≠ .replay)) {store : HistoryStore α} {world : σ}
    {x : Execution σ ε α} (h : Round w.body wid (store.load wid) store world x)
    (hr : x.reply = .error .replay) : Pass.Records ⟨store, x⟩ wid 1 := by
  cases h with
  | returned hi hf hs =>
    -- the script would have returned `replay` of its own
    obtain rfl := eq_ret_of_next hs
    exact absurd hr (hown.feed w.body rfl hf).ret_ne
  | mismatch hi hf hs hid => cases hr
  | @recorded s stepId f k v world' hf hs hv =>
    refine ⟨?_, [⟨(store.load wid).length, stepId, v⟩], rfl, HistoryStore.load_save _ _ _⟩
    simp [List.filter_append]
  | failed hf hs hv => cases hr

/-- The last execution has recorded nothing. -/
theorem records_of_last {store : HistoryStore α} {world : σ} {x : Execution σ ε α}
    (h : Round w.body wid (store.load wid) store world x) (hr : x.reply ≠ .error .replay) :
    Pass.Records ⟨store, x⟩ wid 0 := by
  cases h with
  | returned hi hf hs => exact ⟨by simp, [], rfl, (List.append_nil _).symm⟩
  | mismatch hi hf hs hid => exact ⟨by simp [List.filter_append], [], rfl, (List.append_nil _).symm⟩
  | recorded hf hs hv => exact absurd rfl hr
  | @failed s stepId f k e world' hf hs hv =>
    -- the step functions of a script return
    cases s with
    | ret reply => cases hs
    | step stepId' f' k' =>
      obtain ⟨-, rfl, -⟩ := Request.step.inj hs
      cases hv

end Script

/-- What the passes of a script add up to. -/
theorem Passes.accounts {w : Script σ ε α} {store : HistoryStore α} {world : σ}
    {ps : List (Pass σ ε α)} {o : Outcome σ ε α} (hown : w.OwnErrors (· ≠ .replay))
    (h : Passes w.toWorkflow port wid engine store world ps o) (he : engine.wid = wid) :
    ∃ recording last new, ps = recording ++ [last] ∧ (∀ p ∈ recording, p.Records wid 1) ∧
      last.Records wid 0 ∧ o.store.load wid = store.load wid ++ new ∧
      recording.length = new.length ∧ o.executions.length = 1 + new.length ∧
      o.engine.replays = engine.replays + new.length := by
  induction h with
  | @last engine store world x hx hr =>
    have hlast := Script.records_of_last (hx.round he) hr
    obtain ⟨-, new, hnew, hload⟩ := hlast
    obtain rfl := List.length_eq_zero_iff.mp hnew
    exact ⟨[], _, [], rfl, fun p hp => absurd hp List.not_mem_nil,
      Script.records_of_last (hx.round he) hr, hload, rfl, rfl, rfl⟩
  | @again engine store world x ps o hx hr hps ih =>
    obtain ⟨recording, last, new, rfl, hone, hlast, hload, hlen, hexec, hrep⟩ := ih he
    have hfirst := Script.records_of_replay hown (hx.round he) hr
    obtain ⟨-, ev, hev, hload'⟩ := hfirst
    refine ⟨⟨store, x⟩ :: recording, last, ev ++ new, rfl, ?_, hlast, ?_, ?_, ?_, ?_⟩
    · intro p hp
      rcases List.mem_cons.mp hp with rfl | hp
      · exact Script.records_of_replay hown (hx.round he) hr
      · exact hone p hp
    · show o.store.load wid = _
      rw [hload, hload', List.append_assoc]
    · rw [List.length_cons, List.length_append]
      omega
    · rw [List.length_cons, List.length_append]
      omega
    · show o.engine.replays = _
      rw [hrep, List.length_append]
      show engine.replays + 1 + new.length = _
      omega

/-- **A run terminates, and `replays` counts what it has recorded**: every execution of the body but
the last invokes one step function and appends one event, and the last invokes none. -/
theorem run_accounts (w : Script σ ε α) (hown : w.OwnErrors (· ≠ .replay)) (wid : String)
    (engine : Engine) (store : HistoryStore α) (world : σ) :
    ∃ o recording last new, Runs w.toWorkflow .rust wid engine store world o ∧
      Passes w.toWorkflow .rust wid { engine with wid } store world (recording ++ [last]) o ∧
      (∀ p ∈ recording, p.Records wid 1) ∧ last.Records wid 0 ∧
      o.store.load wid = store.load wid ++ new ∧ recording.length = new.length ∧
      o.executions.length = 1 + new.length ∧ o.engine.replays = engine.replays + new.length := by
  have he : ({ engine with wid } : Engine).wid = wid := rfl
  obtain ⟨o, ho⟩ := Script.loops hown he store world
  obtain ⟨ps, hps⟩ := loops_iff_passes.mp ho
  obtain ⟨recording, last, new, rfl, hone, hlast, hload, hlen, hexec, hrep⟩ := hps.accounts hown he
  exact ⟨o, recording, last, new, runs_iff.mpr ho, hps, hone, hlast, hload, hlen, hexec, hrep⟩

/-- A run on a history that holds the first of two steps. -/
theorem run_accounts_order :
    ∃ o, Runs (.step "charge" (fun n => (100, n + 1)) fun a => .step "ship" (fun n => (1, n + 1))
          fun b => .ret (.ok (a + b)) : Script ℕ Empty ℕ).toWorkflow .rust "order-1" ⟨"", 0⟩
        (HistoryStore.new.save "order-1" [⟨0, "charge", 100⟩]) 0 o ∧
      ∃ new, o.store.load "order-1" = ⟨0, "charge", 100⟩ :: new ∧
        o.executions.length = 1 + new.length ∧ o.engine.replays = new.length := by
  obtain ⟨o, recording, last, new, ho, -, -, -, hload, -, hexec, hrep⟩ := run_accounts
    (.step "charge" (fun n => (100, n + 1)) fun a => .step "ship" (fun n => (1, n + 1))
      fun b => .ret (.ok (a + b)) : Script ℕ Empty ℕ) (fun _ _ => trivial) "order-1" ⟨"", 0⟩
    (HistoryStore.new.save "order-1" [⟨0, "charge", 100⟩]) 0
  rw [HistoryStore.load_save] at hload
  exact ⟨o, ho, new, hload, hexec, by rw [hrep, Nat.zero_add]⟩

end DurableExecution
