import DurableExecution.Library.System
import DurableExecution.Engine.Run

/-!
# Executions that overlap

Any number of Rust engines on one store, with their executions interleaved in any order, as when a
body or a step closure runs the same id through a second engine. Each execution works on the copy of
the history that it loaded, and a save stores the whole copy.
-/

namespace DurableExecution

/-- An execution in progress: its context, and the step whose closure is running. `since` is the
time at which it loaded its history; only the statements use it. -/
structure Ongoing (α : Type) where
  ctx : WorkflowContext α
  waiting : Option String
  since : ℕ

/-- The store and the executions in progress, each with a key of its own. `clock` counts the actions
that were taken; only the statements use it. -/
structure OverlapState (α : Type) where
  store : HistoryStore α
  executions : ℕ → Option (Ongoing α)
  clock : ℕ

/-- What can happen next. -/
inductive OverlapAct (α : Type) where
  /-- An engine calls `run` or `resume`, and its first execution gets the key. -/
  | run (key : ℕ) (wid : String)
  /-- The body of the execution calls `ctx.step(stepId, f)`. -/
  | step (key : ℕ) (stepId : String)
  /-- Its closure returns. -/
  | done (key : ℕ) (result : α)
  /-- Its body returns `replay`, and the loop starts the next execution. -/
  | replay (key : ℕ)
  /-- Its body ends in another way, or the run is abandoned. -/
  | leave (key : ℕ)

namespace OverlapState

variable {α : Type}

def init (store : HistoryStore α) : OverlapState α := ⟨store, fun _ => none, 0⟩

/-- What becomes of one execution. -/
def put (s : OverlapState α) (key : ℕ) (e : Option (Ongoing α)) : OverlapState α :=
  { s with executions := Function.update s.executions key e, clock := s.clock + 1 }

/-- An execution that loads the history of `wid` now. -/
def load (s : OverlapState α) (wid : String) : Ongoing α :=
  ⟨.new wid (s.store.load wid), none, s.clock⟩

/-- The closure has returned `result`: append it to the context's copy of the history, and save the
copy. -/
def record (s : OverlapState α) (key : ℕ) (e : Ongoing α) (stepId : String) (result : α) :
    OverlapState α :=
  let (ctx, store) := e.ctx.record e.ctx.wid stepId result s.store
  ({ s with store } : OverlapState α).put key (some ⟨ctx, none, e.since⟩)

def next (s : OverlapState α) : OverlapAct α → Option (OverlapState α)
  | .run key wid =>
    match s.executions key with
    | none => some (s.put key (some (s.load wid)))
    | some _ => none
  | .step key stepId =>
    match s.executions key with
    | some ⟨ctx, none, since⟩ =>
      match (ctx.serve stepId : Option (Reply Empty α × WorkflowContext α)) with
      | some (_, ctx) => some (s.put key (some ⟨ctx, none, since⟩))
      | none => some (s.put key (some ⟨ctx, some stepId, since⟩))
    | _ => none
  | .done key result =>
    match s.executions key with
    | some ⟨ctx, some stepId, since⟩ => some (s.record key ⟨ctx, some stepId, since⟩ stepId result)
    | _ => none
  | .replay key =>
    match s.executions key with
    | some ⟨ctx, none, _⟩ => some (s.put key (some (s.load ctx.wid)))
    | _ => none
  | .leave key =>
    match s.executions key with
    | some _ => some (s.put key none)
    | none => none

/-- From the first state to the second one the log was only appended to: every stored event is still
at its position, and an execution that has loaded the history since invokes no closure at the
position of such an event. -/
structure AppendOnly (s t : OverlapState α) : Prop where
  kept : ∀ wid, s.store.load wid <+: t.store.load wid
  served : ∀ key e, t.executions key = some e → e.waiting ≠ none → s.clock ≤ e.since →
    (s.store.load e.ctx.wid).length ≤ e.ctx.cursor

/-- When a closure returns, nobody has recorded anything under the id since the execution has loaded
the history or recorded itself, or only the very event that it records now. -/
def RecordsLatest (s : OverlapState α) : OverlapAct α → Prop
  | .done key result => ∀ ctx stepId since, s.executions key = some ⟨ctx, some stepId, since⟩ →
      s.store.load ctx.wid = ctx.history ∨
        s.store.load ctx.wid = ctx.history ++ [⟨ctx.history.length, stepId, result⟩]
  | _ => True

end OverlapState

end DurableExecution
