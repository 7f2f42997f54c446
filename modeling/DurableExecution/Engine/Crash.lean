import Mathlib.Logic.Function.Iterate
import DurableExecution.Engine.Run

/-!
# Runs that are cut short

The Rust engine in small steps, so that a run can be cut at any point: in body code, inside a step
closure, between a closure and its save, right after a save. What a crash leaves behind is the
store; the world outside may look like anything the closure and others have made of it.
-/

namespace DurableExecution

variable {σ ε α S : Type}

/-- Where a run is. -/
inductive Phase (σ ε α S : Type) where
  /-- In body code. -/
  | body (ctx : WorkflowContext α) (s : S)
  /-- In the step function `f`, which was called with the id `stepId`. -/
  | closure (ctx : WorkflowContext α) (stepId : String) (f : StepFn σ ε α) (k : Reply ε α → S)
  /-- The step function has returned `result`, which is not saved yet. -/
  | save (ctx : WorkflowContext α) (stepId : String) (result : α) (k : Reply ε α → S)
  /-- `run` has returned. -/
  | returned (reply : Reply ε α)

/-- A run in progress. -/
structure Machine (σ ε α S : Type) where
  engine : Engine
  store : HistoryStore α
  world : σ
  phase : Phase σ ε α S
  /-- The positions at which this run has invoked a step function, in order. -/
  invoked : List ℕ

namespace Machine

/-- `run` is called: load the history and enter the body. -/
def start (w : Workflow σ ε α S) (wid : String) (engine : Engine) (store : HistoryStore α)
    (world : σ) : Machine σ ε α S :=
  ⟨{ engine with wid }, store, world, .body (.new wid (store.load wid)) w.start, []⟩

/-- One small step of `run`. -/
def micro (w : Workflow σ ε α S) (wid : String) (m : Machine σ ε α S) : Machine σ ε α S :=
  match m.phase with
  | .body ctx s =>
    match w.next s with
    | .ret (.error .replay) =>
      { m with
        engine := { m.engine with replays := m.engine.replays + 1 }
        phase := .body (.new wid (m.store.load wid)) w.start }
    | .ret reply => { m with phase := .returned reply }
    | .step stepId f k =>
      match ctx.serve stepId with
      | some (reply, ctx) => { m with phase := .body ctx (k reply) }
      | none => { m with phase := .closure ctx stepId f k, invoked := m.invoked ++ [ctx.cursor] }
  | .closure ctx stepId f k =>
    match f m.world with
    | (.error e, world) => { m with world, phase := .body ctx (k (.error (.crash e))) }
    | (.ok result, world) => { m with world, phase := .save ctx stepId result k }
  | .save ctx stepId result k =>
    let (ctx, store) := ctx.record (m.engine.target .rust ctx) stepId result m.store
    { m with store, phase := .body ctx (k (.error .replay)) }
  | .returned _ => m

end Machine

/-- The position of the step function that is invoked but not saved. -/
def Phase.pending : Phase σ ε α S → List ℕ
  | .closure ctx _ _ _ => [ctx.cursor]
  | .save ctx _ _ _ => [ctx.cursor]
  | _ => []

/-- An attempt that is cut short. -/
structure Attempt (σ : Type) where
  engine : Engine
  /-- After how many small steps it is cut. -/
  cut : ℕ
  /-- What becomes of the world until the next attempt. -/
  after : σ → σ

/-- What the attempts leave behind. -/
structure Durable (σ α : Type) where
  store : HistoryStore α
  world : σ
  /-- The positions at which a step function was invoked, in order. -/
  invoked : List ℕ
  /-- The positions at which an attempt was cut after the invocation and before the save. -/
  cuts : List ℕ

/-- One more attempt on `wid` that is cut short. -/
def Durable.attempt (w : Workflow σ ε α S) (wid : String) (d : Durable σ α) (a : Attempt σ) :
    Durable σ α :=
  let m := (Machine.micro w wid)^[a.cut] (.start w wid a.engine d.store d.world)
  ⟨m.store, a.after m.world, d.invoked ++ m.invoked, d.cuts ++ m.phase.pending⟩

/-- Any number of attempts on `wid` that are cut short. -/
def crashed (w : Workflow σ ε α S) (wid : String) (store : HistoryStore α) (world : σ)
    (attempts : List (Attempt σ)) : Durable σ α :=
  attempts.foldl (Durable.attempt w wid) ⟨store, world, [], []⟩

end DurableExecution
