import DurableExecution.Library.Fuel
import DurableExecution.Engine.History

/-!
# The replay engine

`WorkflowContext.step`, the execution of a workflow body, and the loop of `Engine.run`.

A workflow body is deterministic code between its calls of `ctx.step`: it is given by its local
states `S`, the state it starts in, and what it does next in each state. What a step call returns is
all that it learns from outside, so `next` of a state after a call is a function of the reply. The
step functions read and change an outside world of type `σ`, and may fail (in Rust they do not).

The ports differ in one place only: where the id that a save goes to is kept.
-/

namespace DurableExecution

/-- Where a port keeps the id that a save goes to. `rust` keeps it in the context; `python` stands
for the Python, Go, TypeScript, Java and C# engines, which keep it in a field of the engine. -/
inductive Port where
  | rust
  | python
deriving DecidableEq, Repr

/-- The state of an engine that outlives a call of `run`. The store is shared, so it is passed
separately. -/
structure Engine where
  /-- The id of the last `run` that was started (the Rust engine has no such field). -/
  wid : String
  /-- How many times a workflow was run again from the top. -/
  replays : ℕ
deriving DecidableEq, Repr

/-- The id that a save made through `ctx` goes to. -/
def Engine.target {α : Type} (port : Port) (engine : Engine) (ctx : WorkflowContext α) : String :=
  match port with
  | .rust => ctx.wid
  | .python => engine.wid

theorem Engine.target_eq {α : Type} {port : Port} {engine : Engine} {ctx : WorkflowContext α}
    {wid : String} (he : engine.wid = wid) (hc : ctx.wid = wid) : engine.target port ctx = wid := by
  cases port with
  | rust => exact hc
  | python => exact he

/-- A step function: what it returns and what it does to the outside world. -/
abbrev StepFn (σ ε α : Type) := σ → Except ε α × σ

/-- What a workflow body does next. -/
inductive Action (σ ε α S : Type) where
  /-- The body ends. -/
  | ret (reply : Reply ε α)
  /-- The body calls `ctx.step(stepId, f)` and goes on with what the call returned. -/
  | step (stepId : String) (f : StepFn σ ε α) (k : Reply ε α → S)

/-- A deterministic workflow body with local states `S`. -/
structure Workflow (σ ε α S : Type) where
  /-- The state at the top of the body. -/
  start : S
  /-- What the body does in each state. -/
  next : S → Action σ ε α S

/-- The record of one call of `step`, for the statements only. -/
structure StepCall (ε α : Type) where
  /-- The id the body asked for. -/
  stepId : String
  /-- The cursor at the time of the call. -/
  position : ℕ
  /-- Whether the step function was invoked. -/
  invoked : Bool
  reply : Reply ε α

variable {σ ε α S : Type}

/-- What one call of `step` leaves behind. -/
structure Stepped (σ ε α : Type) where
  reply : Reply ε α
  context : WorkflowContext α
  store : HistoryStore α
  world : σ
  /-- Whether the step function was invoked. -/
  invoked : Bool

/-- `WorkflowContext.step`: answer from the history while it lasts. The first time a position is
reached, run `f`, append its result, make the history durable, and return `replay` so that the
engine runs the body again from the top. A step function that fails leaves nothing behind in the
history. -/
def WorkflowContext.step (port : Port) (engine : Engine) (ctx : WorkflowContext α) (stepId : String)
    (f : StepFn σ ε α) (store : HistoryStore α) (world : σ) : Stepped σ ε α :=
  match ctx.serve stepId with
  | some (reply, ctx) => ⟨reply, ctx, store, world, false⟩
  | none =>
    match f world with
    | (.error e, world) => ⟨.error (.crash e), ctx, store, world, true⟩
    | (.ok result, world) =>
      let (ctx, store) := ctx.record (engine.target port ctx) stepId result store
      ⟨.error .replay, ctx, store, world, true⟩

/-! ## Rules for `step` -/

theorem step_of_match (port : Port) (engine : Engine) {ctx : WorkflowContext α} {ev : HistoryEvent α}
    (h : ctx.history[ctx.cursor]? = some ev) (f : StepFn σ ε α) (store : HistoryStore α) (world : σ) :
    ctx.step port engine ev.stepId f store world =
      ⟨.ok ev.result, { ctx with cursor := ctx.cursor + 1 }, store, world, false⟩ := by
  simp [WorkflowContext.step, WorkflowContext.serve_match h]

theorem step_of_mismatch (port : Port) (engine : Engine) {ctx : WorkflowContext α}
    {ev : HistoryEvent α} {stepId : String} (h : ctx.history[ctx.cursor]? = some ev)
    (hid : ev.stepId ≠ stepId) (f : StepFn σ ε α) (store : HistoryStore α) (world : σ) :
    ctx.step port engine stepId f store world =
      ⟨.error (.nonDeterministic (mismatchMessage ev.stepId ctx.cursor stepId)), ctx, store, world,
        false⟩ := by
  simp [WorkflowContext.step, WorkflowContext.serve_mismatch h hid]

theorem step_of_ok (port : Port) (engine : Engine) {ctx : WorkflowContext α} (stepId : String)
    {f : StepFn σ ε α} {world world' : σ} {v : α} (h : ctx.history.length ≤ ctx.cursor)
    (hv : f world = (.ok v, world')) (store : HistoryStore α) :
    ctx.step port engine stepId f store world =
      ⟨.error .replay,
        { ctx with history := ctx.history ++ [⟨ctx.history.length, stepId, v⟩] },
        store.save (engine.target port ctx) (ctx.history ++ [⟨ctx.history.length, stepId, v⟩]),
        world', true⟩ := by
  simp [WorkflowContext.step, WorkflowContext.serve_eq_none_iff.mpr h, hv, WorkflowContext.record]

theorem step_of_error (port : Port) (engine : Engine) {ctx : WorkflowContext α} (stepId : String)
    {f : StepFn σ ε α} {world world' : σ} {e : ε} (h : ctx.history.length ≤ ctx.cursor)
    (hv : f world = (.error e, world')) (store : HistoryStore α) :
    ctx.step port engine stepId f store world = ⟨.error (.crash e), ctx, store, world', true⟩ := by
  simp [WorkflowContext.step, WorkflowContext.serve_eq_none_iff.mpr h, hv]

/-! ## Executions and runs -/

/-- One execution of a workflow body, from the call `workflow(ctx)` to its end. -/
structure Execution (σ ε α : Type) where
  reply : Reply ε α
  context : WorkflowContext α
  store : HistoryStore α
  world : σ
  /-- The calls of `step` that the body made, in order. -/
  calls : List (StepCall ε α)

/-- Runs the body from the state `s`. -/
def Workflow.exec (w : Workflow σ ε α S) (port : Port) (engine : Engine) :
    ℕ → S → WorkflowContext α → HistoryStore α → σ → Option (Execution σ ε α)
  | 0, _, _, _, _ => none
  | n + 1, s, ctx, store, world =>
    match w.next s with
    | .ret reply => some ⟨reply, ctx, store, world, []⟩
    | .step stepId f k =>
      let r := ctx.step port engine stepId f store world
      (w.exec port engine n (k r.reply) r.context r.store r.world).map fun x =>
        { x with calls := ⟨stepId, ctx.cursor, r.invoked, r.reply⟩ :: x.calls }

/-- What a call of `run` leaves behind. -/
structure Outcome (σ ε α : Type) where
  reply : Reply ε α
  engine : Engine
  store : HistoryStore α
  world : σ
  /-- The executions of the body, in order, each with its calls of `step`. -/
  executions : List (List (StepCall ε α))

/-- The loop of `Engine.run`: load what is durable, run the body, and start again when it returned
`replay`. -/
def Engine.loop (w : Workflow σ ε α S) (port : Port) (wid : String) :
    ℕ → Engine → HistoryStore α → σ → Option (Outcome σ ε α)
  | 0, _, _, _ => none
  | n + 1, engine, store, world =>
    match w.exec port engine n w.start (.new wid (store.load wid)) store world with
    | none => none
    | some x =>
      match x.reply with
      | .error .replay =>
        (loop w port wid n { engine with replays := engine.replays + 1 } x.store x.world).map
          fun o => { o with executions := x.calls :: o.executions }
      | reply => some ⟨reply, engine, x.store, x.world, [x.calls]⟩

/-- `Engine.run`: execute `w` to completion for the workflow id `wid`. -/
def Engine.run (w : Workflow σ ε α S) (port : Port) (wid : String) (n : ℕ) (engine : Engine)
    (store : HistoryStore α) (world : σ) : Option (Outcome σ ε α) :=
  loop w port wid n { engine with wid } store world

/-- `Engine.resume`: the same call. -/
abbrev Engine.resume (w : Workflow σ ε α S) (port : Port) (wid : String) (n : ℕ) (engine : Engine)
    (store : HistoryStore α) (world : σ) : Option (Outcome σ ε α) :=
  run w port wid n engine store world

/-- The execution of the body from `s` ends with `x`. -/
def Executes (w : Workflow σ ε α S) (port : Port) (engine : Engine) (s : S)
    (ctx : WorkflowContext α) (store : HistoryStore α) (world : σ) (x : Execution σ ε α) : Prop :=
  Fuel.Yields (fun n => w.exec port engine n s ctx store world) x

/-- The loop of `run` ends with `o`. -/
def Loops (w : Workflow σ ε α S) (port : Port) (wid : String) (engine : Engine)
    (store : HistoryStore α) (world : σ) (o : Outcome σ ε α) : Prop :=
  Fuel.Yields (fun n => Engine.loop w port wid n engine store world) o

/-- The call `run(wid, w)` returns, and leaves `o` behind. -/
def Runs (w : Workflow σ ε α S) (port : Port) (wid : String) (engine : Engine)
    (store : HistoryStore α) (world : σ) (o : Outcome σ ε α) : Prop :=
  Fuel.Yields (fun n => Engine.run w port wid n engine store world) o

/-! ## Rules for executions -/

variable {w : Workflow σ ε α S} {port : Port} {engine : Engine} {wid : String}

theorem exec_stable (s : S) (ctx : WorkflowContext α) (store : HistoryStore α) (world : σ) :
    Fuel.Stable fun n => w.exec port engine n s ctx store world := by
  intro n
  induction n generalizing s ctx store world with
  | zero => intro x h; simp [Workflow.exec] at h
  | succ n ih =>
    intro x h
    simp only [Workflow.exec] at h ⊢
    cases hs : w.next s with
    | ret reply => simpa only [hs] using h
    | step stepId f k =>
      simp only [hs, Option.map_eq_some_iff] at h ⊢
      obtain ⟨y, hy, rfl⟩ := h
      exact ⟨y, ih _ _ _ _ _ hy, rfl⟩

theorem Executes.unique {s : S} {ctx : WorkflowContext α} {store : HistoryStore α} {world : σ}
    {x y : Execution σ ε α} (hx : Executes w port engine s ctx store world x)
    (hy : Executes w port engine s ctx store world y) : x = y :=
  Fuel.Yields.unique (exec_stable s ctx store world) hx hy

/-- A body that returns ends the execution. -/
theorem executes_ret_iff {s : S} {ctx : WorkflowContext α} {store : HistoryStore α} {world : σ}
    {reply : Reply ε α} (hs : w.next s = .ret reply) {x : Execution σ ε α} :
    Executes w port engine s ctx store world x ↔ x = ⟨reply, ctx, store, world, []⟩ := by
  constructor
  · rintro ⟨n, hn⟩
    cases n with
    | zero => simp [Workflow.exec] at hn
    | succ n => simpa [Workflow.exec, hs, eq_comm] using hn
  · rintro rfl
    exact ⟨1, by simp [Workflow.exec, hs]⟩

/-- A body that calls `step` goes on with what the call returned. -/
theorem executes_step_iff {s : S} {ctx : WorkflowContext α} {store : HistoryStore α} {world : σ}
    {stepId : String} {f : StepFn σ ε α} {k : Reply ε α → S} (hs : w.next s = .step stepId f k)
    {r : Stepped σ ε α} (hr : ctx.step port engine stepId f store world = r) {x : Execution σ ε α} :
    Executes w port engine s ctx store world x ↔
      ∃ y, Executes w port engine (k r.reply) r.context r.store r.world y ∧
        x = { y with calls := ⟨stepId, ctx.cursor, r.invoked, r.reply⟩ :: y.calls } := by
  subst hr
  constructor
  · rintro ⟨n, hn⟩
    cases n with
    | zero => simp [Workflow.exec] at hn
    | succ n =>
      simp only [Workflow.exec, hs, Option.map_eq_some_iff] at hn
      obtain ⟨y, hy, rfl⟩ := hn
      exact ⟨y, ⟨n, hy⟩, rfl⟩
  · rintro ⟨y, ⟨n, hn⟩, rfl⟩
    exact ⟨n + 1, by simp only [Workflow.exec, hs, hn, Option.map_some]⟩

/-- Induction over the calls of `step` that an execution makes. -/
@[elab_as_elim]
theorem Executes.induct
    {motive : ∀ {s ctx store world x}, Executes w port engine s ctx store world x → Prop}
    (ret : ∀ {s ctx store world reply} (_ : w.next s = .ret reply)
      (hx : Executes w port engine s ctx store world ⟨reply, ctx, store, world, []⟩), motive hx)
    (step : ∀ {s ctx store world stepId f k} {r : Stepped σ ε α} {y : Execution σ ε α}
      (_ : w.next s = .step stepId f k) (_ : ctx.step port engine stepId f store world = r)
      (hy : Executes w port engine (k r.reply) r.context r.store r.world y)
      (hx : Executes w port engine s ctx store world
        { y with calls := ⟨stepId, ctx.cursor, r.invoked, r.reply⟩ :: y.calls }),
      motive hy → motive hx)
    {s : S} {ctx : WorkflowContext α} {store : HistoryStore α} {world : σ} {x : Execution σ ε α}
    (h : Executes w port engine s ctx store world x) : motive h := by
  obtain ⟨n, hn⟩ := h
  induction n generalizing s ctx store world x with
  | zero => simp [Workflow.exec] at hn
  | succ n ih =>
    have hx := hn
    simp only [Workflow.exec] at hx
    cases hs : w.next s with
    | ret reply =>
      simp only [hs, Option.some.injEq] at hx
      subst hx
      exact ret hs ⟨n + 1, hn⟩
    | step stepId f k =>
      simp only [hs, Option.map_eq_some_iff] at hx
      obtain ⟨y, hy, rfl⟩ := hx
      exact step hs rfl ⟨n, hy⟩ ⟨n + 1, hn⟩ (ih hy)

/-! ## Rules for the loop and for `run` -/

theorem loop_stable (engine : Engine) (store : HistoryStore α) (world : σ) :
    Fuel.Stable fun n => Engine.loop w port wid n engine store world := by
  intro n
  induction n generalizing engine store world with
  | zero => intro o h; simp [Engine.loop] at h
  | succ n ih =>
    intro o h
    simp only [Engine.loop] at h ⊢
    cases hx : w.exec port engine n w.start (.new wid (store.load wid)) store world with
    | none => simp [hx] at h
    | some x =>
      have hx' := exec_stable _ _ _ _ _ _ hx
      simp only [hx] at h
      simp only [hx']
      split at h
      · obtain ⟨p, hp, rfl⟩ := Option.map_eq_some_iff.mp h
        exact Option.map_eq_some_iff.mpr ⟨p, ih _ _ _ _ hp, rfl⟩
      · exact h

theorem Loops.unique {store : HistoryStore α} {world : σ} {o p : Outcome σ ε α}
    (ho : Loops w port wid engine store world o) (hp : Loops w port wid engine store world p) :
    o = p :=
  Fuel.Yields.unique (loop_stable engine store world) ho hp

/-- One round of the loop: the body ends, and its reply decides whether there is another round. -/
theorem loops_iff {store : HistoryStore α} {world : σ} {o : Outcome σ ε α} :
    Loops w port wid engine store world o ↔
      ∃ x, Executes w port engine w.start (.new wid (store.load wid)) store world x ∧
        ((x.reply = .error .replay ∧
          ∃ p, Loops w port wid { engine with replays := engine.replays + 1 } x.store x.world p ∧
            o = { p with executions := x.calls :: p.executions }) ∨
         (x.reply ≠ .error .replay ∧ o = ⟨x.reply, engine, x.store, x.world, [x.calls]⟩)) := by
  constructor
  · rintro ⟨n, hn⟩
    cases n with
    | zero => simp [Engine.loop] at hn
    | succ n =>
      simp only [Engine.loop] at hn
      cases hx : w.exec port engine n w.start (.new wid (store.load wid)) store world with
      | none => simp [hx] at hn
      | some x =>
        simp only [hx] at hn
        refine ⟨x, ⟨n, hx⟩, ?_⟩
        split at hn
        · rename_i hr
          obtain ⟨p, hp, rfl⟩ := Option.map_eq_some_iff.mp hn
          exact Or.inl ⟨hr, p, ⟨n, hp⟩, rfl⟩
        · rename_i hr
          exact Or.inr ⟨hr, (Option.some.inj hn).symm⟩
  · rintro ⟨x, hx, ⟨hr, p, hp, rfl⟩ | ⟨hr, rfl⟩⟩
    · obtain ⟨n, hn, hm⟩ := Fuel.Yields.both (exec_stable _ _ _ _) (loop_stable _ _ _) hx hp
      exact ⟨n + 1, by simp only [Engine.loop, hn, hr, hm, Option.map_some]⟩
    · obtain ⟨n, hn⟩ := hx
      refine ⟨n + 1, ?_⟩
      simp only at hn
      simp only [Engine.loop, hn]

/-- Induction over the rounds of the loop. -/
@[elab_as_elim]
theorem Loops.induct
    {motive : ∀ {engine store world o}, Loops w port wid engine store world o → Prop}
    (stop : ∀ {engine store world} (x : Execution σ ε α)
      (hx : Executes w port engine w.start (.new wid (store.load wid)) store world x)
      (hr : x.reply ≠ .error .replay), motive (loops_iff.mpr ⟨x, hx, Or.inr ⟨hr, rfl⟩⟩))
    (again : ∀ {engine store world} (x : Execution σ ε α) {o : Outcome σ ε α}
      (hx : Executes w port engine w.start (.new wid (store.load wid)) store world x)
      (hr : x.reply = .error .replay)
      (ho : Loops w port wid { engine with replays := engine.replays + 1 } x.store x.world o),
      motive ho → motive (loops_iff.mpr ⟨x, hx, Or.inl ⟨hr, o, ho, rfl⟩⟩))
    {store : HistoryStore α} {world : σ} {o : Outcome σ ε α}
    (h : Loops w port wid engine store world o) : motive h := by
  obtain ⟨n, hn⟩ := h
  induction n generalizing engine store world o with
  | zero => simp [Engine.loop] at hn
  | succ n ih =>
    have hstep := hn
    simp only [Engine.loop] at hstep
    cases hx : w.exec port engine n w.start (.new wid (store.load wid)) store world with
    | none => simp [hx] at hstep
    | some x =>
      simp only [hx] at hstep
      split at hstep
      · rename_i hr
        obtain ⟨p, hp, rfl⟩ := Option.map_eq_some_iff.mp hstep
        exact again x ⟨n, hx⟩ hr ⟨n, hp⟩ (ih hp)
      · rename_i hr
        obtain rfl := Option.some.inj hstep
        exact stop x ⟨n, hx⟩ hr

theorem Runs.unique {store : HistoryStore α} {world : σ} {o p : Outcome σ ε α}
    (ho : Runs w port wid engine store world o) (hp : Runs w port wid engine store world p) : o = p :=
  Loops.unique ho hp

/-- `run` sets the running id and enters the loop. -/
theorem runs_iff {store : HistoryStore α} {world : σ} {o : Outcome σ ε α} :
    Runs w port wid engine store world o ↔ Loops w port wid { engine with wid } store world o :=
  Iff.rfl

end DurableExecution
