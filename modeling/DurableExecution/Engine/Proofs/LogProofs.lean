import Mathlib.Tactic.Set
import DurableExecution.Engine.Log

/-!
# Proofs: the log under arbitrary bodies

The invariant is `LogState.Consistent`. A call of `step` has three outcomes (served, different id,
recorded), and each of them keeps it: after a recorded step the cursor is one behind the history
that the context itself has just extended, and the next call of `step` is served that event.
-/

namespace DurableExecution

namespace LogState

variable {α : Type} {s s' t : LogState α} {r : Running α} {stepId : String} {v : α}

/-- The outcomes of a call of `step`. -/
theorem stepCall_cases (r : Running α) (stepId : String) (v : α) (store : HistoryStore α) :
    (∃ ev, r.ctx.history[r.ctx.cursor]? = some ev ∧ ev.stepId = stepId ∧
      stepCall r stepId v store =
        ⟨.ok ev.result, { r.ctx with cursor := r.ctx.cursor + 1 }, store, (), false⟩) ∨
    (∃ ev, r.ctx.history[r.ctx.cursor]? = some ev ∧ ev.stepId ≠ stepId ∧
      stepCall r stepId v store = ⟨.error (.nonDeterministic
        (mismatchMessage ev.stepId r.ctx.cursor stepId)), r.ctx, store, (), false⟩) ∨
    (r.ctx.history.length ≤ r.ctx.cursor ∧
      stepCall r stepId v store = ⟨.error .replay,
        { r.ctx with history := r.ctx.history ++ [⟨r.ctx.history.length, stepId, v⟩] },
        store.save r.ctx.wid (r.ctx.history ++ [⟨r.ctx.history.length, stepId, v⟩]), (), true⟩) := by
  cases hev : r.ctx.history[r.ctx.cursor]? with
  | some ev =>
    by_cases hid : ev.stepId = stepId
    · subst hid
      exact Or.inl ⟨ev, rfl, rfl, step_of_match .rust r.engine hev _ store ()⟩
    · exact Or.inr (Or.inl ⟨ev, rfl, hid, step_of_mismatch .rust r.engine hev hid _ store ()⟩)
  | none =>
    have hlen : r.ctx.history.length ≤ r.ctx.cursor := List.getElem?_eq_none_iff.mp hev
    exact Or.inr (Or.inr ⟨hlen, step_of_ok .rust r.engine stepId hlen rfl store⟩)

/-- A call of `step` keeps the workflow id of its context. -/
@[simp] theorem wid_stepCall (r : Running α) (stepId : String) (v : α) (store : HistoryStore α) :
    (stepCall r stepId v store).context.wid = r.ctx.wid := by
  rcases stepCall_cases r stepId v store with ⟨_, _, _, hx⟩ | ⟨_, _, _, hx⟩ | ⟨_, hx⟩ <;> rw [hx]

theorem consistent_init : (init : LogState α).Consistent where
  events := fun _ => rfl
  history := by simp [init]
  cursor := by simp [init]
  served := by simp [init]

/-- Starting an execution: the history is loaded, and nothing was served yet. -/
theorem Consistent.start (hs : s.Consistent) (engine : Engine) (wid : String) :
    Consistent { s with running := some ⟨engine, .new wid (s.store.load wid), []⟩ } where
  events := hs.events
  history := by
    intro r hr
    obtain rfl := Option.some.inj hr
    rfl
  cursor := by
    intro r hr
    obtain rfl := Option.some.inj hr
    exact Nat.zero_le _
  served := by
    intro r hr
    obtain rfl := Option.some.inj hr
    rfl

/-- A recorded step extends the history of its own workflow id by the event of this call. -/
theorem load_save_eventsOf (hs : s.Consistent) (hr : s.running = some r) (wid : String) :
    (s.store.save r.ctx.wid (r.ctx.history ++ [⟨r.ctx.history.length, stepId, v⟩])).load wid =
      eventsOf (Function.update s.recorded r.ctx.wid (s.recorded r.ctx.wid ++ [(stepId, v)]) wid) := by
  by_cases hw : wid = r.ctx.wid
  · subst hw
    rw [HistoryStore.load_save, Function.update_self, hs.history r hr, hs.events, length_eventsOf,
      eventsOf_snoc]
  · rw [HistoryStore.load_save_of_ne _ hw, Function.update_of_ne hw, hs.events]

/-- A call of `step` keeps the invariant. -/
theorem Consistent.afterStep (hs : s.Consistent) (hr : s.running = some r) (stepId : String) (v : α) :
    (s.afterStep r stepId v).Consistent := by
  have hh := hs.history r hr
  have hc := hs.cursor r hr
  have hv := hs.served r hr
  rcases stepCall_cases r stepId v s.store with
    ⟨ev, hev, rfl, hx⟩ | ⟨ev, hev, hid, hx⟩ | ⟨hlen, hx⟩
  · -- served: the cursor moves over the event at its place
    have hlt : r.ctx.cursor < r.ctx.history.length := (List.getElem?_eq_some_iff.mp hev).1
    refine ⟨by simpa [LogState.afterStep, hx] using hs.events, ?_, ?_, ?_⟩ <;> intro r' hr' <;>
      simp only [LogState.afterStep, hx, Option.some.injEq] at hr' <;> subst hr'
    · simpa [LogState.afterStep, hx] using hh
    · exact hlt
    · simp only [List.take_add_one, hev, hv, List.map_append, Option.toList_some, List.map_cons,
        List.map_nil]
  · refine ⟨by simpa [LogState.afterStep, hx] using hs.events, ?_, ?_, ?_⟩ <;> intro r' hr' <;>
      simp only [LogState.afterStep, hx, Option.some.injEq] at hr' <;> subst hr'
    · simpa [LogState.afterStep, hx] using hh
    · exact hc
    · exact hv
  · -- recorded: the cursor stays, one behind the extended history
    refine ⟨?_, ?_, ?_, ?_⟩
    · intro wid
      simpa [LogState.afterStep, hx] using load_save_eventsOf hs hr wid
    all_goals
      intro r' hr'
      simp only [LogState.afterStep, hx, Option.some.injEq] at hr'
      subst hr'
    · simp [LogState.afterStep, hx]
    · simp only [List.length_append, List.length_singleton]
      omega
    · simp only [List.take_append_of_le_length hc, hv]

/-- Every action keeps the invariant. -/
theorem Consistent.next (s : LogState α) (a : LogAct α) (s' : LogState α) (hs : s.Consistent)
    (h : s.next a = some s') : s'.Consistent := by
  cases a with
  | run engine wid =>
    cases hr : s.running with
    | none =>
      simp only [LogState.next, hr, Option.some.injEq] at h
      subst h
      exact hs.start _ _
    | some r => simp [LogState.next, hr] at h
  | step stepId v =>
    obtain ⟨r, hr, rfl⟩ := Option.map_eq_some_iff.mp h
    exact hs.afterStep hr stepId v
  | replay =>
    obtain ⟨r, hr, rfl⟩ := Option.map_eq_some_iff.mp h
    exact hs.start _ _
  | leave =>
    obtain ⟨r, hr, rfl⟩ := Option.map_eq_some_iff.mp h
    exact ⟨hs.events, by simp, by simp, by simp⟩

/-- A state that is reached from a new store is consistent. -/
theorem consistent_of_runs {as : List (LogAct α)} (h : System.runs LogState.next init as = some s) :
    s.Consistent :=
  System.runs_invariant Consistent.next h consistent_init

/-- A call of `step` leaves the stored histories as they are, or it appends one event to the history
of the run's own workflow id. -/
theorem load_afterStep (hs : s.Consistent) (hr : s.running = some r) (stepId : String) (v : α)
    (wid : String) :
    (s.afterStep r stepId v).store.load wid = s.store.load wid ∨
      (wid = r.ctx.wid ∧ (s.afterStep r stepId v).store.load wid =
        s.store.load wid ++ [⟨(s.store.load wid).length, stepId, v⟩]) := by
  have hh := hs.history r hr
  rcases stepCall_cases r stepId v s.store with
    ⟨ev, hev, hid, hx⟩ | ⟨ev, hev, hid, hx⟩ | ⟨hlen, hx⟩
  · exact Or.inl (by simp [LogState.afterStep, hx])
  · exact Or.inl (by simp [LogState.afterStep, hx])
  · by_cases hw : wid = r.ctx.wid
    · subst hw
      exact Or.inr ⟨rfl, by simp [LogState.afterStep, hx, hh]⟩
    · exact Or.inl (by simp [LogState.afterStep, hx, HistoryStore.load_save_of_ne _ hw])

/-- No action changes or removes a stored event. -/
theorem prefix_next (s : LogState α) (a : LogAct α) (s' : LogState α) (hs : s.Consistent)
    (h : s.next a = some s') (wid : String) : s.store.load wid <+: s'.store.load wid := by
  cases a with
  | run engine wid' =>
    cases hr : s.running with
    | none =>
      simp only [LogState.next, hr, Option.some.injEq] at h
      subst h
      exact List.prefix_rfl
    | some r => simp [LogState.next, hr] at h
  | step stepId v =>
    obtain ⟨r, hr, rfl⟩ := Option.map_eq_some_iff.mp h
    rcases load_afterStep hs hr stepId v wid with heq | ⟨-, heq⟩
    · exact ⟨[], by rw [heq, List.append_nil]⟩
    · rw [heq]
      exact List.prefix_append _ _
  | replay =>
    obtain ⟨r, hr, rfl⟩ := Option.map_eq_some_iff.mp h
    exact List.prefix_rfl
  | leave =>
    obtain ⟨r, hr, rfl⟩ := Option.map_eq_some_iff.mp h
    exact List.prefix_rfl

/-- Stored events stay, for ever and at their positions. -/
theorem prefix_of_runs {as : List (LogAct α)} (hs : s.Consistent)
    (h : System.runs LogState.next s as = some t) (wid : String) :
    s.store.load wid <+: t.store.load wid :=
  System.runs_relation (R := fun s t => s.store.load wid <+: t.store.load wid) Consistent.next
    (fun _ => List.prefix_rfl) (fun _ _ _ => List.IsPrefix.trans)
    (fun s a s' hs h => prefix_next s a s' hs h wid) h hs

/-! ## The laws of a call of `step` -/

/-- What a call of `step` made in the state `s` by the run `r` leaves behind in `s'` and `r'`. -/
structure StepLaw (s s' : LogState α) (r r' : Running α) (stepId : String) (v : α) : Prop where
  wid : r'.ctx.wid = r.ctx.wid
  /-- The context and the store agree. -/
  history : r'.ctx.history = s'.store.load r.ctx.wid
  /-- At most one event is appended. -/
  appended : s'.store.load r.ctx.wid = s.store.load r.ctx.wid ∨
    ∃ ev, s'.store.load r.ctx.wid = s.store.load r.ctx.wid ++ [ev]
  /-- Events stay, whatever follows. -/
  kept : ∀ bs t, System.runs LogState.next s' bs = some t →
    ∀ wid, s.store.load wid <+: s'.store.load wid ∧ s'.store.load wid <+: t.store.load wid
  /-- Event `i` has `seq = i`, and it is what the `i`-th recording call asked for and computed. -/
  events : ∀ wid i (ev : HistoryEvent α), (s'.store.load wid)[i]? = some ev →
    ev.seq = i ∧ (s'.recorded wid)[i]? = some (ev.stepId, ev.result)
  /-- A value is the result of the event at the cursor, and the cursor moves over it. -/
  answered : ∀ u, (stepCall r stepId v s.store).reply = .ok u →
    ∃ ev, (s.store.load r.ctx.wid)[r.ctx.cursor]? = some ev ∧ ev.stepId = stepId ∧ ev.result = u ∧
      r'.ctx.cursor = r.ctx.cursor + 1 ∧ r'.served = r.served ++ [(stepId, u)]
  /-- The execution was served a prefix of the stored events. -/
  served : r'.served =
    ((s'.store.load r.ctx.wid).take r'.ctx.cursor).map fun ev => (ev.stepId, ev.result)
  /-- A step function is invoked only after all of them. -/
  invoked : (stepCall r stepId v s.store).invoked = true →
    r.served = (s.store.load r.ctx.wid).map fun ev => (ev.stepId, ev.result)
  other : ∀ wid, wid ≠ r.ctx.wid → s'.store.load wid = s.store.load wid

/-- Events that come from recorded calls carry their position, and what the call asked for. -/
theorem getElem?_eventsOf {calls : List (String × α)} {i : ℕ} {ev : HistoryEvent α}
    (h : (eventsOf calls)[i]? = some ev) :
    ev.seq = i ∧ calls[i]? = some (ev.stepId, ev.result) := by
  rw [eventsOf, List.getElem?_mapIdx] at h
  obtain ⟨c, hc, rfl⟩ := Option.map_eq_some_iff.mp h
  exact ⟨rfl, hc⟩

/-- A value that `step` returns is the result of the event at the cursor. -/
theorem answered_of_stepCall (hs : s.Consistent) (hr : s.running = some r) {u : α}
    (hu : (stepCall r stepId v s.store).reply = .ok u) :
    ∃ ev, (s.store.load r.ctx.wid)[r.ctx.cursor]? = some ev ∧ ev.stepId = stepId ∧ ev.result = u ∧
      (stepCall r stepId v s.store).context.cursor = r.ctx.cursor + 1 := by
  have hh := hs.history r hr
  rcases stepCall_cases r stepId v s.store with
    ⟨ev, hev, hid, hx⟩ | ⟨ev, hev, hid, hx⟩ | ⟨hlen, hx⟩
  · rw [hx] at hu ⊢
    obtain rfl : ev.result = u := Except.ok.inj hu
    exact ⟨ev, hh ▸ hev, hid, rfl, rfl⟩
  · rw [hx] at hu
    cases hu
  · rw [hx] at hu
    cases hu

/-- A step function is invoked only when the execution was served the whole history. -/
theorem served_of_invoked (hs : s.Consistent) (hr : s.running = some r)
    (hi : (stepCall r stepId v s.store).invoked = true) :
    r.served = (s.store.load r.ctx.wid).map fun ev => (ev.stepId, ev.result) := by
  have hh := hs.history r hr
  have hc := hs.cursor r hr
  rcases stepCall_cases r stepId v s.store with
    ⟨ev, hev, hid, hx⟩ | ⟨ev, hev, hid, hx⟩ | ⟨hlen, hx⟩
  · rw [hx] at hi
    cases hi
  · rw [hx] at hi
    cases hi
  · have hall : r.ctx.cursor = r.ctx.history.length := by omega
    rw [hs.served r hr, hall, List.take_length, hh]

/-- **The laws of `step` hold in every run of the log**, whatever the bodies do. -/
theorem stepLaw_of_runs {as : List (LogAct α)} (h : System.runs LogState.next init as = some s)
    (hstep : s.next (.step stepId v) = some s') :
    ∃ r r', s.running = some r ∧ s'.running = some r' ∧ StepLaw s s' r r' stepId v := by
  have hs : s.Consistent := consistent_of_runs h
  have hs' : s'.Consistent := hs.next _ _ _ hstep
  have hpre : ∀ wid, s.store.load wid <+: s'.store.load wid := prefix_next s _ s' hs hstep
  obtain ⟨r, hr, rfl⟩ := Option.map_eq_some_iff.mp hstep
  obtain ⟨r', hr', hctx⟩ : ∃ r', (s.afterStep r stepId v).running = some r' ∧
      r'.ctx = (stepCall r stepId v s.store).context := ⟨_, rfl, rfl⟩
  have hwid : r'.ctx.wid = r.ctx.wid := by rw [hctx, wid_stepCall]
  refine ⟨r, r', hr, hr', ⟨hwid, ?_, ?_, ?_, ?_, ?_, ?_, ?_, ?_⟩⟩
  · rw [hs'.history r' hr', hwid]
  · rcases load_afterStep hs hr stepId v r.ctx.wid with heq | ⟨-, heq⟩
    · exact Or.inl heq
    · exact Or.inr ⟨_, heq⟩
  · intro bs t hbs wid
    exact ⟨hpre wid, prefix_of_runs hs' hbs wid⟩
  · intro wid i ev hev
    rw [hs'.events wid] at hev
    exact getElem?_eventsOf hev
  · intro u hu
    obtain ⟨ev, hev, hid, hres, hcur⟩ := answered_of_stepCall hs hr hu
    refine ⟨ev, hev, hid, hres, by rw [hctx, hcur], ?_⟩
    obtain rfl := Option.some.inj hr'
    simp only [hu]
  · rw [hs'.served r' hr', hs'.history r' hr', hwid]
  · exact served_of_invoked hs hr
  · intro wid hne
    rcases load_afterStep hs hr stepId v wid with heq | ⟨hw, -⟩
    · exact heq
    · exact absurd hw hne

/-- A body that ignores the `replay` of its first step and calls `step` again. -/
theorem stepLaw_of_runs_ignored :
    ∃ s s' : LogState ℕ, s'.store.load "wf" = [⟨0, "a", 7⟩, ⟨1, "b", 9⟩] ∧
      ∃ r r', s.running = some r ∧ s'.running = some r' ∧ StepLaw s s' r r' "b" 9 := by
  obtain ⟨s, hs⟩ : ∃ s, System.runs LogState.next (init : LogState ℕ)
      [.run ⟨"", 0⟩ "wf", .step "a" 7, .step "a" 8] = some s := ⟨_, rfl⟩
  obtain ⟨s', hs'⟩ : ∃ s', s.next (.step "b" 9) = some s' := by
    obtain rfl := Option.some.inj hs
    exact ⟨_, rfl⟩
  refine ⟨s, s', ?_, stepLaw_of_runs hs hs'⟩
  obtain rfl := Option.some.inj hs
  obtain rfl := Option.some.inj hs'
  decide

/-! ## The runs of the engine are runs of the log -/

section Engine

variable {σ ε S : Type}

/-- Every step function of the body returns. -/
def StepsReturn (w : Workflow σ ε α S) : Prop :=
  ∀ st stepId f k, w.next st = .step stepId f k → ∀ world, ∃ v, (f world).1 = .ok v

/-- A call of `step` with a step function that returns `v` is the action `step stepId v`. -/
theorem step_eq_stepCall (engine : Engine) (r : Running α) (stepId : String) {f : StepFn σ ε α}
    {world world' : σ} (hv : f world = (.ok v, world')) (store : HistoryStore α) :
    (r.ctx.step .rust engine stepId f store world).context = (stepCall r stepId v store).context ∧
      (r.ctx.step .rust engine stepId f store world).store = (stepCall r stepId v store).store := by
  rcases stepCall_cases r stepId v store with
    ⟨ev, hev, rfl, hx⟩ | ⟨ev, hev, hid, hx⟩ | ⟨hlen, hx⟩
  · rw [hx, step_of_match .rust engine hev]
    exact ⟨rfl, rfl⟩
  · rw [hx, step_of_mismatch .rust engine hev hid]
    exact ⟨rfl, rfl⟩
  · rw [hx, step_of_ok .rust engine stepId hlen hv]
    exact ⟨rfl, rfl⟩

variable {w : Workflow σ ε α S}

/-- The step calls of one execution, as actions. -/
theorem runs_of_executes (hw : StepsReturn w) {engine : Engine} {st : S} {ctx : WorkflowContext α}
    {store : HistoryStore α} {world : σ} {x : Execution σ ε α}
    (h : Executes w .rust engine st ctx store world x) (hst : s.store = store)
    (hr : s.running = some r) (hc : r.ctx = ctx) :
    ∃ as s' r', System.runs LogState.next s as = some s' ∧ s'.store = x.store ∧
      s'.running = some r' ∧ r'.ctx.wid = r.ctx.wid ∧ r'.engine = r.engine := by
  induction h using Executes.induct generalizing s r with
  | ret hs hx =>
    subst hst hc
    exact ⟨[], s, r, rfl, rfl, hr, rfl, rfl⟩
  | @step st ctx store world stepId f k x y hs hx hy _ ih =>
    subst hst hc
    obtain ⟨v, hv⟩ := hw st stepId f k hs world
    obtain ⟨hctx, hstore⟩ := step_eq_stepCall engine r stepId (Prod.ext hv rfl) s.store
    rw [hx] at hctx hstore
    have hnext : s.next (.step stepId v) = some (s.afterStep r stepId v) := by
      rw [LogState.next, hr, Option.map_some]
    obtain ⟨as, s', r', has, hst', hr', hwid, heng⟩ :=
      ih (s := s.afterStep r stepId v) hstore.symm rfl hctx.symm
    rw [wid_stepCall] at hwid
    exact ⟨_, s', r', System.runs_cons_iff.mpr ⟨_, hnext, has⟩, hst', hr', hwid, heng⟩

/-- The executions of the loop, as actions. -/
theorem runs_of_loops (hw : StepsReturn w) {wid : String} {engine : Engine} {store : HistoryStore α}
    {world : σ} {o : Outcome σ ε α} (h : Loops w .rust wid engine store world o) :
    ∀ s : LogState α, s.store = store →
      s.running = some ⟨engine, .new wid (s.store.load wid), []⟩ →
      ∃ as s', System.runs LogState.next s as = some s' ∧ s'.store = o.store ∧ s'.running = none := by
  induction h using Loops.induct with
  | stop x hx hr =>
    intro s hst hrun
    obtain ⟨as, s', r', has, hst', hr', -, -⟩ := runs_of_executes hw hx hst hrun (by rw [← hst])
    have hleave : s'.next .leave = some { s' with running := none } := by
      rw [LogState.next, hr', Option.map_some]
    exact ⟨as ++ [.leave], { s' with running := none }, System.runs_append_iff.mpr
      ⟨s', has, System.runs_cons_iff.mpr ⟨_, hleave, rfl⟩⟩, hst', rfl⟩
  | @again engine store world x o hx hr ho ih =>
    intro s hst hrun
    obtain ⟨as, s', r', has, hst', hr', hwid, heng⟩ :=
      runs_of_executes hw hx hst hrun (by rw [← hst])
    set s'' : LogState α := { s' with
      running := some ⟨{ engine with replays := engine.replays + 1 },
        .new wid (s'.store.load wid), []⟩ }
    have hreplay : s'.next .replay = some s'' := by
      rw [LogState.next, hr', Option.map_some, heng, hwid]
      rfl
    obtain ⟨bs, t, hbs, ht⟩ := ih s'' hst' rfl
    exact ⟨as ++ .replay :: bs, t, System.runs_append_iff.mpr
      ⟨s', has, System.runs_cons_iff.mpr ⟨_, hreplay, hbs⟩⟩, ht⟩

/-- **A call of `run`, with any body, is a run of the log.** -/
theorem runs_of_run (hw : StepsReturn w) {wid : String} {engine : Engine} {world : σ}
    {o : Outcome σ ε α} (hs : s.running = none) (h : Runs w .rust wid engine s.store world o) :
    ∃ as s', System.runs LogState.next s as = some s' ∧ s'.store = o.store ∧ s'.running = none := by
  set s' : LogState α := { s with
    running := some ⟨{ engine with wid }, .new wid (s.store.load wid), []⟩ }
  have hrun : s.next (.run engine wid) = some s' := by rw [LogState.next, hs]
  obtain ⟨as, t, has, ht⟩ := runs_of_loops hw (runs_iff.mp h) s' rfl rfl
  exact ⟨_, t, System.runs_cons_iff.mpr ⟨_, hrun, has⟩, ht⟩

end Engine

end LogState

end DurableExecution
