import DurableExecution.Library.System
import DurableExecution.Engine.Run

/-!
# The log under arbitrary bodies

The engines on one store, driven by bodies about which nothing is known. A body acts on the engine
by calling `ctx.step`, by returning `replay`, and by ending in any other way; when it does which is
left open, and so is what its step functions return. One run is in progress at a time.
-/

namespace DurableExecution

/-- The run in progress. `served` is what the step calls of the current execution have returned so
far, with the ids they asked for; only the statements use it. -/
structure Running (α : Type) where
  engine : Engine
  ctx : WorkflowContext α
  served : List (String × α)

/-- The store, the run in progress, and the step calls that recorded something, in order, for each
workflow id; only the statements use `recorded`. -/
structure LogState (α : Type) where
  store : HistoryStore α
  running : Option (Running α)
  recorded : String → List (String × α)

/-- What can happen next. -/
inductive LogAct (α : Type) where
  /-- `run` or `resume` is called on an engine. -/
  | run (engine : Engine) (wid : String)
  /-- The body calls `ctx.step(stepId, f)`; `f` returns `v` if it is invoked. -/
  | step (stepId : String) (v : α)
  /-- The body returns `replay`, and the loop starts the next execution. -/
  | replay
  /-- The body ends in another way, and so does the run. -/
  | leave

namespace LogState

variable {α : Type}

/-- The call of `ctx.step(stepId, f)` when `f` returns `v`. -/
def stepCall (r : Running α) (stepId : String) (v : α) (store : HistoryStore α) :
    Stepped Unit Empty α :=
  r.ctx.step .rust r.engine stepId (fun world => (.ok v, world)) store ()

def afterStep (s : LogState α) (r : Running α) (stepId : String) (v : α) : LogState α :=
  let x := stepCall r stepId v s.store
  { store := x.store
    running := some { r with
      ctx := x.context
      served := match x.reply with
        | .ok u => r.served ++ [(stepId, u)]
        | .error _ => r.served }
    recorded := if x.invoked then
        Function.update s.recorded r.ctx.wid (s.recorded r.ctx.wid ++ [(stepId, v)])
      else s.recorded }

def next (s : LogState α) : LogAct α → Option (LogState α)
  | .run engine wid =>
    match s.running with
    | none => some { s with running := some ⟨{ engine with wid }, .new wid (s.store.load wid), []⟩ }
    | some _ => none
  | .step stepId v => s.running.map fun r => s.afterStep r stepId v
  | .replay => s.running.map fun r =>
    { s with running := some ⟨{ r.engine with replays := r.engine.replays + 1 },
        .new r.ctx.wid (s.store.load r.ctx.wid), []⟩ }
  | .leave => s.running.map fun _ => { s with running := none }

def init : LogState α := ⟨.new, none, fun _ => []⟩

/-- The events that the recorded step calls of one workflow id leave in its history. -/
def eventsOf (calls : List (String × α)) : List (HistoryEvent α) :=
  calls.mapIdx fun i c => ⟨i, c.1, c.2⟩

@[simp] theorem length_eventsOf (calls : List (String × α)) :
    (eventsOf calls).length = calls.length := by
  simp [eventsOf]

theorem eventsOf_snoc (calls : List (String × α)) (stepId : String) (v : α) :
    eventsOf (calls ++ [(stepId, v)]) = eventsOf calls ++ [⟨calls.length, stepId, v⟩] := by
  simp [eventsOf, List.mapIdx_append]

/-- The stored histories are what was recorded, and the run in progress is in step with its history:
it was served the events before its cursor, in order. -/
structure Consistent (s : LogState α) : Prop where
  events : ∀ wid, s.store.load wid = eventsOf (s.recorded wid)
  history : ∀ r, s.running = some r → r.ctx.history = s.store.load r.ctx.wid
  cursor : ∀ r, s.running = some r → r.ctx.cursor ≤ r.ctx.history.length
  served : ∀ r, s.running = some r →
    r.served = (r.ctx.history.take r.ctx.cursor).map fun ev => (ev.stepId, ev.result)

end LogState

end DurableExecution
