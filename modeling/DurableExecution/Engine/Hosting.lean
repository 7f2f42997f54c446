import DurableExecution.Library.System
import DurableExecution.Engine.Run

/-!
# Systems that take the actions of a run

Some results are about more than one call of `run`: calls within step functions, or calls that
overlap. They are stated over systems whose actions are the steps of a run. A system that `Hosts`
the engine can take the actions of every call of `run`.
-/

namespace DurableExecution

open System

variable {State Act σ ε α S : Type}

/-- In the states `body engine store ctx` of a system one execution stands in its body, with the
context `ctx`; in the states `left engine store` its run has ended. The system can do all that a run
does. -/
structure Hosts (ε : Type) (next : State → Act → Option State) (port : Port)
    (body : Engine → HistoryStore α → WorkflowContext α → State → Prop)
    (left : Engine → HistoryStore α → State → Prop) : Prop where
  /-- The body calls `step`, which answers from the history. -/
  served : ∀ {engine store ctx s} {stepId : String} {reply : Reply Empty α} {ctx'},
    body engine store ctx s → ctx.serve stepId = some (reply, ctx') →
    Reaches next s (body engine store ctx')
  /-- The body calls `step`, and the step function fails. -/
  failed : ∀ {engine store ctx s} (_ : String) (_ : ε),
    body engine store ctx s → ctx.history.length ≤ ctx.cursor → Reaches next s (body engine store ctx)
  /-- The body calls `step`, and the step function returns `v`. -/
  recorded : ∀ {engine store ctx s} (stepId : String) (v : α),
    body engine store ctx s → ctx.history.length ≤ ctx.cursor →
    Reaches next s (body engine (ctx.record (engine.target port ctx) stepId v store).2
      (ctx.record (engine.target port ctx) stepId v store).1)
  /-- The body ends with `replay`. -/
  replay : ∀ {engine store ctx s}, body engine store ctx s →
    Reaches next s (body { engine with replays := engine.replays + 1 } store
      (.new ctx.wid (store.load ctx.wid)))
  /-- The body ends in another way. -/
  leave : ∀ {engine store ctx s}, body engine store ctx s → Reaches next s (left engine store)

/-- What `serve` does to the context does not depend on the failures that the application knows. -/
theorem WorkflowContext.serve_any {δ : Type} {ctx ctx' : WorkflowContext α} {stepId : String}
    {reply : Reply ε α} (h : ctx.serve stepId = some (reply, ctx')) :
    ∃ reply' : Reply δ α, ctx.serve stepId = some (reply', ctx') := by
  unfold serve at h ⊢
  split at h
  · split at h
    · next hne =>
      obtain ⟨-, rfl⟩ := Prod.mk.inj (Option.some.inj h)
      exact ⟨_, if_pos hne⟩
    · next heq =>
      obtain ⟨-, rfl⟩ := Prod.mk.inj (Option.some.inj h)
      exact ⟨_, if_neg heq⟩
  · cases h

namespace Hosts

variable {next : State → Act → Option State} {port : Port}
  {body : Engine → HistoryStore α → WorkflowContext α → State → Prop}
  {left : Engine → HistoryStore α → State → Prop} {w : Workflow σ ε α S}

/-- One call of `step`. -/
theorem step (hosts : Hosts ε next port body left) {engine : Engine} {store : HistoryStore α}
    {ctx : WorkflowContext α} {s : State} (hs : body engine store ctx s) {stepId : String}
    {f : StepFn σ ε α} {world : σ} {r : Stepped σ ε α}
    (hr : ctx.step port engine stepId f store world = r) :
    Reaches next s (body engine r.store r.context) ∧ r.context.wid = ctx.wid := by
  unfold WorkflowContext.step at hr
  split at hr
  · next reply ctx' hserve =>
    subst hr
    obtain ⟨reply', hserve'⟩ := WorkflowContext.serve_any (δ := Empty) hserve
    exact ⟨hosts.served hs hserve', (WorkflowContext.serve_frame hserve).1⟩
  · next hserve =>
    have hend := WorkflowContext.serve_eq_none_iff.mp hserve
    split at hr
    · next e world' hf =>
      subst hr
      exact ⟨hosts.failed stepId e hs hend, rfl⟩
    · next v world' hf =>
      subst hr
      exact ⟨hosts.recorded stepId v hs hend, rfl⟩

/-- The calls of `step` of one execution. -/
theorem executes (hosts : Hosts ε next port body left) {engine : Engine} {st : S}
    {ctx : WorkflowContext α} {store : HistoryStore α} {world : σ} {x : Execution σ ε α}
    (h : Executes w port engine st ctx store world x) {s : State} (hs : body engine store ctx s) :
    Reaches next s (body engine x.store x.context) ∧ x.context.wid = ctx.wid := by
  induction h using Executes.induct generalizing s with
  | ret hn hx => exact ⟨⟨[], s, rfl, hs⟩, rfl⟩
  | step hn hr hy hx ih =>
    obtain ⟨⟨as, s', has, hs'⟩, hwid⟩ := hosts.step hs hr
    obtain ⟨hrest, hwid'⟩ := ih hs'
    exact ⟨.trans ⟨as, s', has, hs'⟩ fun _ hs'' => (ih hs'').1, hwid'.trans hwid⟩

/-- The executions of the loop. -/
theorem loops (hosts : Hosts ε next port body left) {wid : String} {engine : Engine}
    {store : HistoryStore α} {world : σ} {o : Outcome σ ε α} (h : Loops w port wid engine store world o)
    {s : State} (hs : body engine store (.new wid (store.load wid)) s) :
    Reaches next s (left o.engine o.store) := by
  induction h using Loops.induct generalizing s with
  | stop x hx hr =>
    obtain ⟨hreach, -⟩ := hosts.executes hx hs
    exact hreach.trans fun s' hs' => hosts.leave hs'
  | again x hx hr ho ih =>
    obtain ⟨hreach, hwid⟩ := hosts.executes hx hs
    refine (hreach.trans fun s' hs' => hosts.replay hs').trans fun s' hs' => ih ?_
    rw [show x.context.wid = wid from hwid] at hs'
    exact hs'

end Hosts

end DurableExecution
