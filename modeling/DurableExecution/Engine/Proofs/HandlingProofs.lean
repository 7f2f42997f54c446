import Mathlib.Tactic.Set
import DurableExecution.Engine.Handling

/-!
# Proofs: bodies that handle failures

A run follows the body from one answered call to the next. It reports a different id exactly when
the value of a later step is recorded at the position of a call with another id, and otherwise it
ends where every further step raises.
-/

namespace DurableExecution

variable {σ ε α S : Type}

theorem ownReply_ne_replay (reply : Except ε α) : ownReply reply ≠ .error .replay := by
  cases reply <;> simp [ownReply, Except.mapError]

theorem ownReply_ne_nonDeterministic (reply : Except ε α) (message : String) :
    ownReply reply ≠ .error (.nonDeterministic message) := by
  cases reply <;> simp [ownReply, Except.mapError]

theorem ownReply_injective {reply reply' : Except ε α} (h : ownReply reply = ownReply reply') :
    reply = reply' := by
  cases reply <;> cases reply' <;> simp_all [ownReply, Except.mapError]

namespace Handling

variable {b : Handling σ ε α S}

theorem next_ret {s : S} {reply : Except ε α} (hs : b.next s = .ret reply) :
    b.toWorkflow.next (.inl s) = .ret (ownReply reply) := by
  simp only [toWorkflow, hs]

theorem next_step {s : S} {stepId : String} {outcome : Except ε α} {effect : σ → σ}
    {k : Except ε α → S} (hs : b.next s = .step stepId outcome effect k) :
    b.toWorkflow.next (.inl s) = .step stepId (behaves outcome effect) (handle k) := by
  simp only [toWorkflow, hs]

theorem answered_step {s : S} {stepId : String} {outcome : Except ε α} {effect : σ → σ}
    {k : Except ε α → S} (hs : b.next s = .step stepId outcome effect k) :
    b.answered.next s = .step stepId (behaves outcome effect) fun v => k (.ok v) := by
  simp only [answered, hs]

theorem serves (b : Handling σ ε α S) : Serves b.toWorkflow b.answered Sum.inl := by
  intro s stepId f k hs
  cases hn : b.next s with
  | ret reply => simp [answered, hn] at hs
  | step stepId' outcome effect j =>
    simp only [answered, hn, Request.step.injEq] at hs
    obtain ⟨rfl, rfl, rfl⟩ := hs
    exact ⟨_, _, next_step hn, fun _ => rfl⟩

/-! ## What the body does next is determined -/

theorem FirstReturn.unique {s : S} {stepId stepId' : String} {v v' : α}
    (h : b.FirstReturn s stepId v) (h' : b.FirstReturn s stepId' v') : stepId = stepId' ∧ v = v' := by
  induction h with
  | here hs =>
    cases h' with
    | here hs' =>
      rw [hs] at hs'
      cases hs'
      exact ⟨rfl, rfl⟩
    | raised hs' h' =>
      rw [hs] at hs'
      cases hs'
  | raised hs h ih =>
    cases h' with
    | here hs' =>
      rw [hs] at hs'
      cases hs'
    | raised hs' h' =>
      rw [hs] at hs'
      cases hs'
      exact ih h'

theorem EndsQuietly.not_firstReturn {s : S} {reply : Except ε α} (h : b.EndsQuietly s reply)
    {stepId : String} {v : α} : ¬ b.FirstReturn s stepId v := by
  intro h'
  induction h with
  | ret hs =>
    cases h' with
    | here hs' =>
      rw [hs] at hs'
      cases hs'
    | raised hs' h' =>
      rw [hs] at hs'
      cases hs'
  | raised hs h ih =>
    cases h' with
    | here hs' =>
      rw [hs] at hs'
      cases hs'
    | raised hs' h' =>
      rw [hs] at hs'
      cases hs'
      exact ih h'

theorem EndsQuietly.not_answers {s s' : S} {reply : Except ε α} (h : b.EndsQuietly s reply) :
    ¬ b.Answers s s' := by
  rintro ⟨stepId, v, outcome, effect, k, -, hfirst, -⟩
  exact h.not_firstReturn hfirst

theorem answers_rightUnique (b : Handling σ ε α S) : Relator.RightUnique b.Answers := by
  rintro s s₁ s₂ ⟨stepId, v, outcome, effect, k, hs, hfirst, rfl⟩
    ⟨stepId', v', outcome', effect', k', hs', hfirst', rfl⟩
  obtain ⟨rfl, rfl⟩ := hfirst.unique hfirst'
  rw [hs] at hs'
  cases hs'
  rfl

/-- A step that returns is made in `s` or after it, so a step is made in `s`. -/
theorem FirstReturn.next_step {s : S} {stepId : String} {v : α} (h : b.FirstReturn s stepId v) :
    ∃ stepId' outcome effect k, b.next s = .step stepId' outcome effect k := by
  cases h with
  | here hs => exact ⟨_, _, _, _, hs⟩
  | raised hs h => exact ⟨_, _, _, _, hs⟩

/-! ## One execution -/

variable {engine : Engine} {wid : String}

/-- A body that was handed a signal of the engine ends with it. -/
theorem executes_signal {e : WorkflowError ε} {ctx : WorkflowContext α} {store : HistoryStore α}
    {world : σ} :
    Executes b.toWorkflow .python engine (.inr e) ctx store world ⟨.error e, ctx, store, world, []⟩ :=
  (executes_ret_iff rfl).mpr rfl

/-- A call of `step` beyond the history: what the step function does. -/
theorem executes_raised {s : S} {stepId : String} {e : ε} {effect : σ → σ} {k : Except ε α → S}
    (hs : b.next s = .step stepId (.error e) effect k) {ctx : WorkflowContext α}
    (hc : ctx.history.length ≤ ctx.cursor) {store : HistoryStore α} {world : σ} {x : Execution σ ε α} :
    Executes b.toWorkflow .python engine (.inl s) ctx store world x ↔
      ∃ y, Executes b.toWorkflow .python engine (.inl (k (.error e))) ctx store (effect world) y ∧
        x = { y with calls := ⟨stepId, ctx.cursor, true, .error (.crash e)⟩ :: y.calls } := by
  have hf : (behaves (.error e) effect : StepFn σ ε α) world = (.error e, effect world) := rfl
  exact executes_step_iff (next_step hs) (step_of_error .python engine stepId hc hf store)

/-- A step that returns beyond the history is recorded, and the execution ends with `replay`. -/
theorem executes_returns {s : S} {stepId : String} {v : α} {effect : σ → σ} {k : Except ε α → S}
    (hs : b.next s = .step stepId (.ok v) effect k) {ctx : WorkflowContext α}
    (hc : ctx.history.length ≤ ctx.cursor) {store : HistoryStore α} {world : σ} :
    ∃ x, Executes b.toWorkflow .python engine (.inl s) ctx store world x ∧
      x.reply = .error .replay ∧
      x.store = store.save engine.wid (ctx.history ++ [⟨ctx.history.length, stepId, v⟩]) := by
  have hf : (behaves (.ok v) effect : StepFn σ ε α) world = (.ok v, effect world) := rfl
  have hstep := step_of_ok .python engine stepId hc hf store
  exact ⟨_, (executes_step_iff (next_step hs) hstep).mpr ⟨_, executes_signal, rfl⟩, rfl, rfl⟩

/-- When every further step raises, the execution ends as the body does, and nothing is saved. -/
theorem EndsQuietly.executes {s : S} {reply : Except ε α} (h : b.EndsQuietly s reply)
    {ctx : WorkflowContext α} (hc : ctx.history.length ≤ ctx.cursor) (store : HistoryStore α)
    (world : σ) :
    ∃ x, Executes b.toWorkflow .python engine (.inl s) ctx store world x ∧
      x.reply = ownReply reply ∧ x.store = store := by
  induction h generalizing world with
  | ret hs => exact ⟨_, (executes_ret_iff (next_ret hs)).mpr rfl, rfl, rfl⟩
  | raised hs h ih =>
    obtain ⟨y, hy, hyr, hys⟩ := ih _
    exact ⟨_, (executes_raised hs hc).mpr ⟨y, hy, rfl⟩, hyr, hys⟩

/-- Otherwise the first step that returns is recorded at the end of the history. -/
theorem FirstReturn.executes {s : S} {stepId : String} {v : α} (h : b.FirstReturn s stepId v)
    {ctx : WorkflowContext α} (hc : ctx.history.length ≤ ctx.cursor) (store : HistoryStore α)
    (world : σ) :
    ∃ x, Executes b.toWorkflow .python engine (.inl s) ctx store world x ∧
      x.reply = .error .replay ∧
      x.store = store.save engine.wid (ctx.history ++ [⟨ctx.history.length, stepId, v⟩]) := by
  induction h generalizing world with
  | here hs => exact executes_returns hs hc
  | raised hs h ih =>
    obtain ⟨y, hy, hyr, hys⟩ := ih _
    exact ⟨_, (executes_raised hs hc).mpr ⟨y, hy, rfl⟩, hyr, hys⟩

/-- An execution that ends is one of the two. -/
theorem quiet_or_first {s : S} {ctx : WorkflowContext α} (hc : ctx.history.length ≤ ctx.cursor)
    {store : HistoryStore α} {world : σ} {x : Execution σ ε α}
    (hx : Executes b.toWorkflow .python engine (.inl s) ctx store world x) :
    (∃ reply, b.EndsQuietly s reply) ∨ ∃ stepId v, b.FirstReturn s stepId v := by
  generalize hst : (.inl s : S ⊕ WorkflowError ε) = st at hx
  induction hx using Executes.induct generalizing s with
  | ret hn hx =>
    subst hst
    cases hs : b.next s with
    | ret reply => exact Or.inl ⟨reply, .ret hs⟩
    | step stepId outcome effect k => simp [next_step hs] at hn
  | @step st ctx store world stepId f k r y hn hr hy hx ih =>
    subst hst
    cases hs : b.next s with
    | ret reply => simp [next_ret hs] at hn
    | step stepId' outcome effect k' =>
      cases outcome with
      | ok v => exact Or.inr ⟨stepId', v, .here hs⟩
      | error e =>
        obtain ⟨rfl, rfl, rfl⟩ := Action.step.inj ((next_step hs).symm.trans hn)
        have hf : (behaves (.error e) effect : StepFn σ ε α) world = (.error e, effect world) := rfl
        rw [step_of_error .python engine stepId' hc hf store] at hr
        subst hr
        rcases ih hc rfl with ⟨reply, hq⟩ | ⟨stepId'', v, hfirst⟩
        · exact Or.inl ⟨reply, .raised hs hq⟩
        · exact Or.inr ⟨stepId'', v, .raised hs hfirst⟩

/-! ## One round of the loop -/

/-- An execution that starts with this store comes to `s` at the end of the history of `wid`. -/
def At (b : Handling σ ε α S) (wid : String) (store : HistoryStore α) (s : S) : Prop :=
  b.answered.feed b.start (store.load wid) = some s

variable {wid : String} {store : HistoryStore α} {world : σ} {s : S}

/-- An execution walks along the history first. -/
theorem At.executes (hat : b.At wid store s) {x : Execution σ ε α} :
    Executes b.toWorkflow .python engine b.toWorkflow.start (.new wid (store.load wid)) store world x ↔
      ∃ y, Executes b.toWorkflow .python engine (.inl s)
          ⟨wid, store.load wid, (store.load wid).length⟩ store world y ∧
        x = { y with calls := servedCalls ε 0 (store.load wid) ++ y.calls } := by
  have hfull : b.answered.feed b.answered.start ((store.load wid).take (store.load wid).length) =
      some s := by
    rw [List.take_length]
    exact hat
  have htake := executes_take (x := x) .python engine wid b.serves le_rfl store world hfull
  rwa [List.take_length] at htake

/-- After its value was recorded at the position of a call with the same id, the value answers
it. -/
theorem At.save (hat : b.At wid store s) {stepId : String} {outcome : Except ε α} {effect : σ → σ}
    {k : Except ε α → S} (hs : b.next s = .step stepId outcome effect k) (seq : ℕ) (v : α) :
    b.At wid (store.save wid (store.load wid ++ [⟨seq, stepId, v⟩])) (k (.ok v)) := by
  unfold At
  rw [HistoryStore.load_save]
  exact Propagating.feed_snoc hat (answered_step hs) seq v

/-- After it was recorded at the position of a call with another id, that id is reported. -/
theorem At.mismatch (hat : b.At wid store s) {stepId stepId' : String} {outcome : Except ε α}
    {effect : σ → σ} {k : Except ε α → S} (hs : b.next s = .step stepId' outcome effect k)
    (hid : stepId ≠ stepId') (seq : ℕ) (v : α) (engine : Engine) (world : σ) :
    ∃ o message, Loops b.toWorkflow .python wid engine
        (store.save wid (store.load wid ++ [⟨seq, stepId, v⟩])) world o ∧
      o.reply = .error (.nonDeterministic message) := by
  set h := store.load wid with hh
  set ev : HistoryEvent α := ⟨seq, stepId, v⟩ with hevdef
  have hi : h.length ≤ (h ++ [ev]).length := by simp
  have hf : b.answered.feed b.answered.start ((h ++ [ev]).take h.length) = some s := by
    rw [List.take_left]
    exact hat
  have hev : (⟨wid, h ++ [ev], h.length⟩ : WorkflowContext α).history[h.length]? = some ev := by simp
  have hstep := step_of_mismatch .python engine hev hid (behaves outcome effect)
    (store.save wid (h ++ [ev])) world
  obtain ⟨x, hx, hr⟩ : ∃ x, Executes b.toWorkflow .python engine (.inl s)
      ⟨wid, h ++ [ev], h.length⟩ (store.save wid (h ++ [ev])) world x ∧
      x.reply = .error (.nonDeterministic (mismatchMessage stepId h.length stepId')) :=
    ⟨_, (executes_step_iff (next_step hs) hstep).mpr ⟨_, executes_signal, rfl⟩, rfl⟩
  have hload : (store.save wid (h ++ [ev])).load wid = h ++ [ev] := HistoryStore.load_save _ _ _
  obtain ⟨y, hy, hyr⟩ : ∃ y, Executes b.toWorkflow .python engine b.toWorkflow.start
      (.new wid (h ++ [ev])) (store.save wid (h ++ [ev])) world y ∧ y.reply = x.reply :=
    ⟨_, (executes_take .python engine wid b.serves hi _ world hf).mpr ⟨x, hx, rfl⟩, rfl⟩
  rw [hr] at hyr
  have hne : y.reply ≠ .error .replay := by simp [hyr]
  refine ⟨_, _, loops_iff.mpr ⟨y, ?_, Or.inr ⟨hne, rfl⟩⟩, hyr⟩
  rw [hload]
  exact hy

/-- When every further step raises, the run ends as the body does, and nothing is saved. -/
theorem At.loops_quiet (hat : b.At wid store s) {reply : Except ε α} (hq : b.EndsQuietly s reply)
    (engine : Engine) (world : σ) :
    ∃ o, Loops b.toWorkflow .python wid engine store world o ∧ o.reply = ownReply reply ∧
      o.store = store := by
  have hc : (⟨wid, store.load wid, (store.load wid).length⟩ : WorkflowContext α).history.length ≤
      (store.load wid).length := le_rfl
  obtain ⟨y, hy, hyr, hys⟩ := hq.executes hc store world
  have hr : y.reply ≠ .error .replay := by
    rw [hyr]
    exact ownReply_ne_replay reply
  exact ⟨_, loops_iff.mpr ⟨_, hat.executes.mpr ⟨y, hy, rfl⟩, Or.inr ⟨hr, rfl⟩⟩, hyr, hys⟩

/-- Otherwise the first step that returns is recorded, and the loop goes on with the longer
history. -/
theorem At.loops_first (hat : b.At wid store s) (he : engine.wid = wid) {stepId : String} {v : α}
    (hfirst : b.FirstReturn s stepId v) (world : σ) :
    ∃ world' calls, ∀ o, Loops b.toWorkflow .python wid engine store world o ↔
      ∃ p, Loops b.toWorkflow .python wid { engine with replays := engine.replays + 1 }
          (store.save wid (store.load wid ++ [⟨(store.load wid).length, stepId, v⟩])) world' p ∧
        o = { p with executions := calls :: p.executions } := by
  have hc : (⟨wid, store.load wid, (store.load wid).length⟩ : WorkflowContext α).history.length ≤
      (store.load wid).length := le_rfl
  obtain ⟨y, hy, hyr, hys⟩ := hfirst.executes hc store world
  have hx := hat.executes.mpr ⟨y, hy, rfl⟩
  rw [he] at hys
  refine ⟨y.world, servedCalls ε 0 (store.load wid) ++ y.calls, fun o => ?_⟩
  rw [loops_iff, ← hys]
  constructor
  · rintro ⟨x, hx', ⟨-, p, hp, rfl⟩ | ⟨hr, -⟩⟩
    · rw [hx'.unique hx] at hp ⊢
      exact ⟨p, hp, rfl⟩
    · rw [hx'.unique hx] at hr
      exact absurd hyr hr
  · rintro ⟨p, hp, rfl⟩
    exact ⟨_, hx, Or.inl ⟨hyr, p, hp, rfl⟩⟩

/-! ## Runs -/

/-- A run that stands at `s` ends as the run that stands where the answers from `s` lead. -/
theorem loops_of_answers {P : Reply ε α → Prop} {s s' : S} (h : Relation.ReflTransGen b.Answers s s')
    (hend : ∀ engine store world, engine.wid = wid → b.At wid store s' →
      ∃ o, Loops b.toWorkflow .python wid engine store world o ∧ P o.reply) :
    ∀ engine store world, engine.wid = wid → b.At wid store s →
      ∃ o, Loops b.toWorkflow .python wid engine store world o ∧ P o.reply := by
  induction h using Relation.ReflTransGen.head_induction_on with
  | refl => exact hend
  | head hab hbc ih =>
    intro engine store world he hat
    obtain ⟨stepId, v, outcome, effect, k, hs, hfirst, rfl⟩ := hab
    obtain ⟨world', calls, hloop⟩ := hat.loops_first he hfirst world
    obtain ⟨p, hp, hP⟩ := ih { engine with replays := engine.replays + 1 } _ world' he
      (hat.save hs (store.load wid).length v)
    exact ⟨_, (hloop _).mpr ⟨p, hp, rfl⟩, hP⟩

/-- How the loop goes on from a store at which the run stands at `s`. -/
theorem At.round (hat : b.At wid store s) {engine : Engine} {world : σ} {x : Execution σ ε α}
    (hx : Executes b.toWorkflow .python engine b.toWorkflow.start (.new wid (store.load wid)) store
      world      x) (he : engine.wid = wid) :
    (∃ reply, b.EndsQuietly s reply ∧ x.reply = ownReply reply ∧ x.store = store) ∨
    ∃ stepId v, b.FirstReturn s stepId v ∧ x.reply = .error .replay ∧
      x.store = store.save wid (store.load wid ++ [⟨(store.load wid).length, stepId, v⟩]) := by
  have hc : (⟨wid, store.load wid, (store.load wid).length⟩ : WorkflowContext α).history.length ≤
      (store.load wid).length := le_rfl
  obtain ⟨y, hy, rfl⟩ := hat.executes.mp hx
  rcases quiet_or_first hc hy with ⟨reply, hq⟩ | ⟨stepId, v, hfirst⟩
  · obtain ⟨z, hz, hzr, hzs⟩ := hq.executes hc store world
    rw [hy.unique hz]
    exact Or.inl ⟨reply, hq, hzr, hzs⟩
  · obtain ⟨z, hz, hzr, hzs⟩ := hfirst.executes hc store world
    rw [he] at hzs
    rw [hy.unique hz]
    exact Or.inr ⟨stepId, v, hfirst, hzr, hzs⟩

/-- A run of a body whose ids agree reports no other id, and stands at an answered state again. -/
theorem loops_agree (hagree : ∀ s, b.Resumed s → b.IdsAgree s) {engine : Engine}
    {store : HistoryStore α} {world : σ} {o : Outcome σ ε α}
    (h : Loops b.toWorkflow .python wid engine store world o) :
    engine.wid = wid → ∀ s, b.At wid store s → b.Resumed s →
      (∀ message, o.reply ≠ .error (.nonDeterministic message)) ∧
      ∃ s', b.At wid o.store s' ∧ b.Resumed s' := by
  induction h using Loops.induct with
  | stop x hx hr =>
    intro he s hat hs
    rcases hat.round hx he with ⟨reply, -, hxr, hxs⟩ | ⟨stepId, v, -, hxr, -⟩
    · refine ⟨fun message => ?_, s, ?_, hs⟩
      · rw [hxr]
        exact ownReply_ne_nonDeterministic reply message
      · rw [hxs]
        exact hat
    · exact absurd hxr hr
  | again x hx hr ho ih =>
    intro he s hat hs
    rcases hat.round hx he with ⟨reply, -, hxr, -⟩ | ⟨stepId, v, hfirst, -, hxs⟩
    · exact absurd (hxr.symm.trans hr) (ownReply_ne_replay reply)
    · obtain ⟨stepId', outcome, effect, k, hn⟩ := hfirst.next_step
      obtain rfl : stepId' = stepId := hagree s hs _ _ _ _ _ _ hfirst hn
      refine ih he (k (.ok v)) ?_ (hs.tail ⟨_, _, _, _, _, hn, hfirst, rfl⟩)
      rw [hxs]
      exact hat.save hn _ v

/-- A run that ends with the body's own reply has come to a state from which every step raises. -/
theorem loops_own {reply : Except ε α} {engine : Engine} {store : HistoryStore α} {world : σ}
    {o : Outcome σ ε α} (h : Loops b.toWorkflow .python wid engine store world o) :
    engine.wid = wid → o.reply = ownReply reply → ∀ s, b.At wid store s → b.Resumed s →
      ∃ s', b.Resumed s' ∧ b.EndsQuietly s' reply := by
  induction h using Loops.induct with
  | stop x hx hr =>
    intro he hreply s hat hs
    rcases hat.round hx he with ⟨reply', hq, hxr, -⟩ | ⟨stepId, v, -, hxr, -⟩
    · obtain rfl := ownReply_injective (hxr.symm.trans hreply)
      exact ⟨s, hs, hq⟩
    · exact absurd hxr hr
  | @again engine store world x o hx hr ho ih =>
    intro he hreply s hat hs
    rcases hat.round hx he with ⟨reply', -, hxr, -⟩ | ⟨stepId, v, hfirst, -, hxs⟩
    · exact absurd (hxr.symm.trans hr) (ownReply_ne_replay reply')
    · obtain ⟨stepId', outcome, effect, k, hn⟩ := hfirst.next_step
      by_cases hid : stepId = stepId'
      · subst hid
        refine ih he hreply (k (.ok v)) ?_ (hs.tail ⟨_, _, _, _, _, hn, hfirst, rfl⟩)
        rw [hxs]
        exact hat.save hn _ v
      · -- the next execution reports the other id, and so does the run
        rw [hxs] at ho
        obtain ⟨p, message, hp, hpr⟩ := hat.mismatch hn hid (store.load wid).length v
          { engine with replays := engine.replays + 1 } x.world
        rw [ho.unique hp, hpr] at hreply
        exact absurd hreply.symm (ownReply_ne_nonDeterministic reply message)

/-- Every store that only this body has written stands at an answered state, when the ids agree. -/
theorem Written.at (hagree : ∀ s, b.Resumed s → b.IdsAgree s) (h : b.Written wid store) :
    ∃ s, b.At wid store s ∧ b.Resumed s := by
  induction h with
  | fresh hempty => exact ⟨b.start, by rw [At, hempty]; rfl, .refl⟩
  | run h ho ih =>
    obtain ⟨s, hat, hs⟩ := ih
    exact (loops_agree hagree (runs_iff.mp ho) rfl s hat hs).2

/-- When the ids do not agree at an answered state, a run on a new store reports it. -/
theorem reported_of_disagree (hs : b.Resumed s) {stepId stepId' : String} {v : α}
    {outcome : Except ε α} {effect : σ → σ} {k : Except ε α → S} (hfirst : b.FirstReturn s stepId v)
    (hn : b.next s = .step stepId' outcome effect k) (hid : stepId' ≠ stepId) (wid : String)
    (world : σ) :
    ∃ o, Runs b.toWorkflow .python wid ⟨wid, 0⟩ .new world o ∧
      ∃ message, o.reply = .error (.nonDeterministic message) := by
  refine loops_of_answers (P := fun r => ∃ m, r = .error (.nonDeterministic m)) hs ?_ ⟨wid, 0⟩ .new
    world rfl rfl
  intro engine store world he hat
  obtain ⟨world', calls, hloop⟩ := hat.loops_first he hfirst world
  obtain ⟨p, message, hp, hpr⟩ := hat.mismatch hn (Ne.symm hid) (store.load wid).length v
    { engine with replays := engine.replays + 1 } world'
  exact ⟨_, (hloop _).mpr ⟨p, hp, rfl⟩, message, hpr⟩

/-- The answers from an answered state lead to the one at which every further step raises: none
leads beyond it. -/
theorem path_to_quiet {s' : S} {reply : Except ε α} (hs : b.Resumed s) (hs' : b.Resumed s')
    (hq : b.EndsQuietly s' reply) : Relation.ReflTransGen b.Answers s s' := by
  rcases Relation.ReflTransGen.total_of_right_unique b.answers_rightUnique hs hs' with h | h
  · exact h
  · rcases h.cases_head with rfl | ⟨t, ht, -⟩
    · exact .refl
    · exact absurd ht hq.not_answers

/-- **Failure handling is replayable exactly when** the value of a step that follows raising steps
has the id of the call that it is going to answer, and answering the calls so leads to the
straight-through result. -/
theorem failures_replayable_iff (b : Handling σ ε α S) (wid : String) (world : σ) :
    (∀ store, b.Written wid store → ∀ engine,
      (∀ o message, Runs b.toWorkflow .python wid engine store world o →
        o.reply ≠ .error (.nonDeterministic message)) ∧
      ∀ reply, b.Straight b.start reply →
        ∃ o, Runs b.toWorkflow .python wid engine store world o ∧ o.reply = ownReply reply) ↔
    (∀ s, b.Resumed s → b.IdsAgree s) ∧
      ∀ reply, b.Straight b.start reply → ∃ s, b.Resumed s ∧ b.EndsQuietly s reply := by
  constructor
  · intro hall
    have hfresh := hall .new (.fresh rfl) ⟨wid, 0⟩
    constructor
    · intro s hs stepId v stepId' outcome effect k hfirst hn
      by_contra hid
      obtain ⟨o, ho, message, hr⟩ := reported_of_disagree hs hfirst hn hid wid world
      exact hfresh.1 o message ho hr
    · intro reply hstraight
      obtain ⟨o, ho, hr⟩ := hfresh.2 reply hstraight
      exact loops_own (runs_iff.mp ho) rfl hr b.start rfl .refl
  · rintro ⟨hagree, hsame⟩ store hwritten engine
    obtain ⟨s, hat, hs⟩ := hwritten.at hagree
    constructor
    · intro o message ho
      exact (loops_agree hagree (runs_iff.mp ho) rfl s hat hs).1 message
    · intro reply hstraight
      obtain ⟨s', hs', hq⟩ := hsame reply hstraight
      -- the run still has to go from `s` to `s'`
      refine loops_of_answers (P := fun r => r = ownReply reply) (path_to_quiet hs hs' hq) ?_
        { engine with wid } store world rfl hat
      intro engine store world he hat
      obtain ⟨o, ho, hr, -⟩ := hat.loops_quiet hq engine world
      exact ⟨o, ho, hr⟩

end Handling

/-- A reservation that fails, and is released by a compensating step. -/
def compensated : Handling Unit String ℕ (Option (Except String ℕ) ⊕ ℕ) where
  start := .inl none
  next
    | .inl none => .step "reserve" (.error "sold out") id fun r => .inl (some r)
    | .inl (some (.ok v)) => .ret (.ok v)
    | .inl (some (.error _)) => .step "release" (.ok 1) id fun
      | .ok v => .inr v
      | .error _ => .inr 0
    | .inr v => .ret (.ok v)

/-- The second execution of the compensated reservation finds `release` where it asks for
`reserve`. -/
theorem compensated_is_reported :
    ¬ ∀ o message, Runs compensated.toWorkflow .python "trip-1" ⟨"", 0⟩ .new () o →
      o.reply ≠ .error (.nonDeterministic message) := by
  intro hall
  obtain ⟨o, ho, hr⟩ : ∃ o, Runs compensated.toWorkflow .python "trip-1" ⟨"", 0⟩ .new () o ∧
      o.reply = .error (.nonDeterministic (mismatchMessage "release" 0 "reserve")) :=
    ⟨_, ⟨6, rfl⟩, rfl⟩
  exact hall o _ ho hr

end DurableExecution
