import DurableExecution.Library.System
import DurableExecution.Engine.Run

/-!
# Runs within step functions

One engine of the ports that keep the running id in a field of the engine. A step function may call
`run` again on the same engine, to any depth. What the bodies and the step functions do is left
open: a program is any sequence of these actions.
-/

namespace DurableExecution

/-- A run in progress: its context, and the step whose function is running. -/
structure Level (α : Type) where
  ctx : WorkflowContext α
  waiting : Option String

/-- A save, for the statements only: the id of the context through which the event was recorded, and
the id that the history was saved under. -/
structure Saved (α : Type) where
  context : String
  target : String
  event : HistoryEvent α
deriving DecidableEq

/-- The engine, its store, and the runs in progress, the innermost first. -/
structure NestedState (α : Type) where
  engine : Engine
  store : HistoryStore α
  levels : List (Level α)
  saves : List (Saved α)

/-- What can happen next. -/
inductive NestedAct (α : Type) where
  /-- The program, or the step function that is running, calls `run` or `resume`. -/
  | run (wid : String)
  /-- The innermost body calls `ctx.step(stepId, fn)`. -/
  | step (stepId : String)
  /-- The innermost step function returns. -/
  | done (result : α)
  /-- It raises. -/
  | raise
  /-- The innermost body ends with `replay`. -/
  | replay
  /-- It ends in another way, and so does its run. -/
  | leave

namespace NestedState

variable {α : Type}

def init (engine : Engine) (store : HistoryStore α) : NestedState α := ⟨engine, store, [], []⟩

/-- `run` is called: set the running id, load the history, and enter the body. -/
def enter (s : NestedState α) (wid : String) : NestedState α :=
  { s with
    engine := { s.engine with wid }
    levels := ⟨.new wid (s.store.load wid), none⟩ :: s.levels }

/-- The step function has returned `result`: append it to the history of the context, and save that
history under the running id of the engine. -/
def record (s : NestedState α) (ctx : WorkflowContext α) (stepId : String) (result : α)
    (outer : List (Level α)) : NestedState α :=
  let target := s.engine.target .python ctx
  let (ctx', store) := ctx.record target stepId result s.store
  { s with
    store
    levels := ⟨ctx', none⟩ :: outer
    saves := s.saves ++ [⟨ctx.wid, target, ⟨ctx.history.length, stepId, result⟩⟩] }

def next (s : NestedState α) : NestedAct α → Option (NestedState α)
  | .run wid =>
    match s.levels with
    | [] => some (s.enter wid)
    | ⟨_, some _⟩ :: _ => some (s.enter wid)
    | ⟨_, none⟩ :: _ => none
  | .step stepId =>
    match s.levels with
    | ⟨ctx, none⟩ :: outer =>
      match (ctx.serve stepId : Option (Reply Empty α × WorkflowContext α)) with
      | some (_, ctx) => some { s with levels := ⟨ctx, none⟩ :: outer }
      | none => some { s with levels := ⟨ctx, some stepId⟩ :: outer }
    | _ => none
  | .done result =>
    match s.levels with
    | ⟨ctx, some stepId⟩ :: outer => some (s.record ctx stepId result outer)
    | _ => none
  | .raise =>
    match s.levels with
    | ⟨ctx, some _⟩ :: outer => some { s with levels := ⟨ctx, none⟩ :: outer }
    | _ => none
  | .replay =>
    match s.levels with
    | ⟨ctx, none⟩ :: outer => some { s with
        engine := { s.engine with replays := s.engine.replays + 1 }
        levels := ⟨.new ctx.wid (s.store.load ctx.wid), none⟩ :: outer }
    | _ => none
  | .leave =>
    match s.levels with
    | ⟨_, none⟩ :: outer => some { s with levels := outer }
    | _ => none

/-- The workflow ids are isolated: every event was saved under the id of its own context, and the
history of each id is what it was at the start and the events recorded through its own contexts. -/
structure Isolated (start : HistoryStore α) (s : NestedState α) : Prop where
  own : ∀ x ∈ s.saves, x.target = x.context
  history : ∀ wid, s.store.load wid =
    start.load wid ++ (s.saves.filter fun x => x.context = wid).map (·.event)

/-- When the innermost step function returns, the running id of the engine is the one of its
context, and the context's history is the stored one. -/
def RecordsOwn (s : NestedState α) : NestedAct α → Prop
  | .done _ => ∀ ctx stepId outer, s.levels = ⟨ctx, some stepId⟩ :: outer →
      s.engine.wid = ctx.wid ∧ ctx.history = s.store.load ctx.wid
  | _ => True

/-- `run` is called only when no run is in progress. -/
def Sequential (s : NestedState α) : NestedAct α → Prop
  | .run _ => s.levels = []
  | _ => True

end NestedState

end DurableExecution
