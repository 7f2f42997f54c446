import DurableExecution.Engine.Proofs.CompletionProofs

/-!
# Proofs: a changed workflow shape

When `run` reports a history that the body does not follow, and when it does not. A different id at
a position that the body asks for is always reported, before anything has happened. Recorded steps
that the body never asks for are not looked at: `step` compares ids, and `run` does not compare the
cursor with the length of the history when the body returns.
-/

namespace DurableExecution

variable {σ ε α S : Type}

namespace Propagating

/-- Fed the events of `h` one after the other, the body asks for another id than the next recorded
one. -/
def MismatchAt (p : Propagating σ ε α S) (h : List (HistoryEvent α)) : Prop :=
  ∃ i s stepId f k, ∃ hi : i < h.length, p.feed p.start (h.take i) = some s ∧
    p.next s = .step stepId f k ∧ h[i].stepId ≠ stepId

/-- Fed the events of `h` one after the other, the body returns a value before the last of them. -/
def ReturnsEarly (p : Propagating σ ε α S) (h : List (HistoryEvent α)) : Prop :=
  ∃ i s v, i < h.length ∧ p.feed p.start (h.take i) = some s ∧ p.next s = .ret (.ok v)

variable {p : Propagating σ ε α S} {h : List (HistoryEvent α)}

/-- Before a position that the body reached, it asked for the recorded ids. -/
theorem feed_take_step {s : S} {i j : ℕ} (hi : i ≤ h.length)
    (hf : p.feed p.start (h.take i) = some s) (hj : j < i) :
    ∃ t f k, p.feed p.start (h.take j) = some t ∧
      p.next t = .step (h.get ⟨j, by omega⟩).stepId f k := by
  have hlen : j < (h.take i).length := by rw [List.length_take]; omega
  obtain ⟨t, f, k, ht, hn⟩ := feed_prefix hf hlen
  rw [List.take_take, Nat.min_eq_left hj.le] at ht
  rw [List.getElem_take] at hn
  exact ⟨t, f, k, ht, hn⟩

/-- A body that reached position `i` can only meet a different id from there on. -/
theorem le_of_mismatch {s t : S} {i j : ℕ} (hi : i ≤ h.length)
    (hf : p.feed p.start (h.take i) = some s) (hj : j < h.length)
    (ht : p.feed p.start (h.take j) = some t) {stepId : String} {f : StepFn σ ε α} {k : α → S}
    (hn : p.next t = .step stepId f k) (hid : h[j].stepId ≠ stepId) : i ≤ j := by
  by_contra hlt
  obtain ⟨t', f', k', ht', hn'⟩ := feed_take_step hi hf (by omega : j < i)
  rw [ht] at ht'
  cases ht'
  rw [hn] at hn'
  cases hn'
  exact hid rfl

/-- A body that returns meets no different id. -/
theorem not_mismatchAt_of_returns {s : S} {i : ℕ} {reply : Reply ε α} (hi : i ≤ h.length)
    (hf : p.feed p.start (h.take i) = some s) (hs : p.next s = .ret reply) : ¬ p.MismatchAt h := by
  rintro ⟨j, t, stepId, f, k, hj, ht, hn, hid⟩
  have hij := le_of_mismatch hi hf hj ht hn hid
  rcases hij.lt_or_eq with hlt | rfl
  · obtain ⟨t', f', k', ht', hn'⟩ := feed_take_step hj.le ht hlt
    rw [hf] at ht'
    cases ht'
    rw [hs] at hn'
    cases hn'
  · rw [hf] at ht
    cases ht
    rw [hs] at hn
    cases hn

/-- A body that consumes the whole history meets no different id. -/
theorem not_mismatchAt_of_feed {s : S} (hf : p.feed p.start h = some s) : ¬ p.MismatchAt h := by
  rintro ⟨j, t, stepId, f, k, hj, ht, hn, hid⟩
  have := le_of_mismatch le_rfl (by rw [List.take_length]; exact hf) hj ht hn hid
  omega

/-- A body that asks for a step after the whole history did not return before. -/
theorem not_returnsEarly_snoc (hp : ¬ p.ReturnsEarly h) {s : S} (hf : p.feed p.start h = some s)
    {stepId : String} {f : StepFn σ ε α} {k : α → S} (hs : p.next s = .step stepId f k)
    (ev : HistoryEvent α) : ¬ p.ReturnsEarly (h ++ [ev]) := by
  rintro ⟨i, t, v, hi, ht, hn⟩
  rw [List.length_append, List.length_singleton] at hi
  rcases (Nat.lt_succ_iff.mp hi).lt_or_eq with hlt | rfl
  · rw [List.take_append_of_le_length hlt.le] at ht
    exact hp ⟨i, t, v, hlt, ht, hn⟩
  · rw [List.take_left] at ht
    rw [hf] at ht
    cases ht
    rw [hs] at hn
    cases hn

end Propagating

/-! ## Different ids are reported -/

theorem Script.OwnErrors.ne_nonDeterministic {reply : Reply ε α}
    (h : (ret reply : Script σ ε α).OwnErrors fun e => ∃ failure, e = .crash failure)
    (message : String) : reply ≠ .error (.nonDeterministic message) := by
  rintro rfl
  obtain ⟨failure, hf⟩ := h
  cases hf

theorem Script.OwnErrors.ne_replay {reply : Reply ε α}
    (h : (ret reply : Script σ ε α).OwnErrors fun e => ∃ failure, e = .crash failure) :
    reply ≠ .error .replay := by
  rintro rfl
  obtain ⟨failure, hf⟩ := h
  cases hf

theorem Script.OwnErrors.mono {P Q : WorkflowError ε → Prop} {w : Script σ ε α}
    (h : w.OwnErrors P) (hPQ : ∀ e, P e → Q e) : w.OwnErrors Q := by
  induction w with
  | ret reply =>
    cases reply with
    | ok v => trivial
    | error e => exact hPQ e h
  | step stepId f k ih => exact fun v => ih v (h v)

/-- **Id mismatches are reported exactly, and before anything has happened.** -/
theorem run_nonDeterministic_iff (w : Script σ ε α)
    (hown : w.OwnErrors fun e => ∃ failure, e = .crash failure) (wid : String) (engine : Engine)
    (store : HistoryStore α) (world : σ) :
    ∃ o, Runs w.toWorkflow .rust wid engine store world o ∧
      ((∃ message, o.reply = .error (.nonDeterministic message)) ↔
        w.body.MismatchAt (store.load wid)) ∧
      ((∃ message, o.reply = .error (.nonDeterministic message)) →
        o.store = store ∧ o.world = world ∧ o.engine.replays = engine.replays ∧ o.invoked = []) := by
  rcases w.body.feed_cases w.body.start (store.load wid) with
    ⟨left, hf⟩ | ⟨i, left, hi, hf, ⟨reply, hs⟩ | ⟨stepId, f, k, hs, hid⟩⟩
  · -- the body follows the whole history, and every step it takes after that is its own
    have hleft := hown.feed w.body rfl hf
    have hreplay : left.OwnErrors (· ≠ .replay) := hleft.mono fun e he => by
      obtain ⟨failure, rfl⟩ := he
      simp
    have he : ({ engine with wid } : Engine).wid = wid := rfl
    obtain ⟨o, new, ho, hc⟩ := completes left hreplay he store world hf
    have hne := (hc.trace.ownErrors hleft).ne_nonDeterministic
    refine ⟨o, ho, ⟨?_, ?_⟩, ?_⟩
    · rintro ⟨message, hm⟩
      exact absurd hm (hne message)
    · exact fun hmis => absurd hmis (Propagating.not_mismatchAt_of_feed hf)
    · rintro ⟨message, hm⟩
      exact absurd hm (hne message)
  · -- the body returns before the end of the history
    obtain rfl := Script.eq_ret_of_next hs
    have hleft := hown.feed w.body rfl hf
    have hx := executes_returned .rust { engine with wid } wid store world hi.le hf hs
    refine ⟨_, loops_iff.mpr ⟨_, hx, Or.inr ⟨hleft.ne_replay, rfl⟩⟩, ⟨?_, ?_⟩, ?_⟩
    · rintro ⟨message, hm⟩
      exact absurd hm (hleft.ne_nonDeterministic message)
    · exact fun hmis => absurd hmis (Propagating.not_mismatchAt_of_returns hi.le hf hs)
    · rintro ⟨message, hm⟩
      exact absurd hm (hleft.ne_nonDeterministic message)
  · -- the body asks for another id
    have hx := executes_mismatch .rust { engine with wid } wid store world hi hf hs hid
    refine ⟨_, loops_iff.mpr ⟨_, hx, Or.inr ⟨by simp, rfl⟩⟩, ⟨?_, ?_⟩, ?_⟩
    · exact fun _ => ⟨i, left, stepId, f, k, hi, hf, hs, hid⟩
    · exact fun _ => ⟨_, rfl⟩
    · exact fun _ => ⟨rfl, rfl, rfl, by simp [Outcome.invoked, invokedPositions]⟩

/-- A renamed second step is reported, and the run has done nothing. -/
theorem run_nonDeterministic_iff_renamed :
    ∃ o, Runs (.step "a" (fun n => (n, n + 1)) fun _ =>
          .step "DIFFERENT" (fun n => (n, n + 1)) fun v => .ret (.ok v) : Script ℕ Empty ℕ).toWorkflow .rust "wf" ⟨"", 0⟩
        (HistoryStore.new.save "wf" [⟨0, "a", 1⟩, ⟨1, "b", 2⟩]) 7 o ∧
      (∃ message, o.reply = .error (.nonDeterministic message)) ∧ o.world = 7 ∧ o.invoked = [] := by
  obtain ⟨o, ho, hiff, hkept⟩ := run_nonDeterministic_iff
    (.step "a" (fun n => (n, n + 1)) fun _ => .step "DIFFERENT" (fun n => (n, n + 1)) fun v =>
      .ret (.ok v) : Script ℕ Empty ℕ) (fun _ _ => trivial) "wf" ⟨"", 0⟩
    (HistoryStore.new.save "wf" [⟨0, "a", 1⟩, ⟨1, "b", 2⟩]) 7
  have hmis := hiff.mpr ⟨1, _, "DIFFERENT", _, _, by decide, rfl, rfl, by decide⟩
  obtain ⟨-, hworld, -, hinv⟩ := hkept hmis
  exact ⟨o, ho, hmis, hworld, hinv⟩

/-! ## Removed steps are not -/

/-- The ids that the last execution of a run asked for. -/
def Outcome.lastIds (o : Outcome σ ε α) : List String :=
  (o.executions.getLast?.getD []).map (·.stepId)

theorem Loops.executions_ne_nil {w : Workflow σ ε α S} {port : Port} {wid : String} {engine : Engine}
    {store : HistoryStore α} {world : σ} {o : Outcome σ ε α}
    (h : Loops w port wid engine store world o) : o.executions ≠ [] := by
  obtain ⟨x, -, ⟨-, p, -, rfl⟩ | ⟨-, rfl⟩⟩ := loops_iff.mp h <;> simp

theorem Outcome.lastIds_cons (o : Outcome σ ε α) (calls : List (StepCall ε α))
    (h : o.executions ≠ []) :
    Outcome.lastIds { o with executions := calls :: o.executions } = o.lastIds := by
  cases he : o.executions with
  | nil => exact absurd he h
  | cons c cs => simp [Outcome.lastIds, he]

variable {p : Propagating σ ε α S} {port : Port} {wid : String}

/-- A run that returns a value, on a history that the body does not return early on, ends with an
execution that asked for every recorded step. -/
theorem lastIds_of_not_returnsEarly {engine : Engine} {store : HistoryStore α} {world : σ}
    {o : Outcome σ ε α} (h : Loops p.toWorkflow port wid engine store world o) :
    engine.wid = wid → ¬ p.ReturnsEarly (store.load wid) → ∀ v, o.reply = .ok v →
      o.lastIds = (o.store.load wid).map (·.stepId) := by
  induction h using Loops.induct with
  | stop x hx hr =>
    intro he hearly v hv
    cases hx.round he with
    | @returned i s reply hi hf hs =>
      obtain rfl : reply = .ok v := hv
      rcases hi.lt_or_eq with hlt | rfl
      · exact absurd ⟨i, s, v, hlt, hf, hs⟩ hearly
      · simp [Outcome.lastIds]
    | mismatch hi hf hs hid => cases hv
    | recorded hf hs hf' => cases hv
    | failed hf hs hf' => cases hv
  | again x hx hr ho ih =>
    intro he hearly v hv
    rw [Outcome.lastIds_cons _ _ ho.executions_ne_nil]
    refine ih he ?_ v hv
    -- the round before either recorded a step or was the body's own `replay`
    cases hx.round he with
    | returned hi hf hs => exact hearly
    | mismatch hi hf hs hid => cases hr
    | recorded hf hs hf' =>
      rw [HistoryStore.load_save]
      exact Propagating.not_returnsEarly_snoc hearly hf hs _
    | failed hf hs hf' => cases hr

/-- **A changed shape passes silently exactly when the body returns early** on the stored
history. -/
theorem run_consumes_history_iff (p : Propagating σ ε α S) (wid : String) (engine : Engine)
    (store : HistoryStore α) (world : σ) :
    (∀ o v, Runs p.toWorkflow .rust wid engine store world o → o.reply = .ok v →
      o.lastIds = (o.store.load wid).map (·.stepId)) ↔ ¬ p.ReturnsEarly (store.load wid) := by
  constructor
  · rintro hall ⟨i, s, v, hi, hf, hs⟩
    have hx := executes_returned .rust { engine with wid } wid store world hi.le hf hs
    have hids := hall _ v (loops_iff.mpr ⟨_, hx, Or.inr ⟨by simp, rfl⟩⟩) rfl
    have hlen := congrArg List.length hids
    simp [Outcome.lastIds] at hlen
    omega
  · exact fun hearly o v ho hv => lastIds_of_not_returnsEarly ho rfl hearly v hv

/-- An order that was charged and shipped. -/
def shippedOrder : HistoryStore ℕ :=
  HistoryStore.new.save "order-1" [⟨0, "charge", 100⟩, ⟨1, "ship", 1⟩]

/-- A version of the order workflow without the shipping step. -/
def chargeOnly : Script Unit Empty ℕ :=
  .step "charge" (fun world => (100, world)) fun a => .ret (.ok a)

/-- Resuming the shipped order without its second step returns a value, and nothing is reported. -/
theorem chargeOnly_passes_silently :
    ¬ ∀ o v, Runs chargeOnly.toWorkflow .rust "order-1" ⟨"", 0⟩ shippedOrder () o → o.reply = .ok v →
      o.lastIds = (o.store.load "order-1").map (·.stepId) := by
  intro hall
  have hrun : Runs chargeOnly.toWorkflow .rust "order-1" ⟨"", 0⟩ shippedOrder ()
      ⟨.ok 100, ⟨"order-1", 0⟩, shippedOrder, (), [[⟨"charge", 0, false, .ok 100⟩]]⟩ := ⟨3, rfl⟩
  exact absurd (hall _ 100 hrun rfl) (by decide)

end DurableExecution
