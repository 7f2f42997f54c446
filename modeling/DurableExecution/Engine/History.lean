import Mathlib.Data.Nat.Notation
import Mathlib.Logic.Function.Basic

/-!
# Histories, the store and the workflow context

The data of the replay engine. A workflow's history is the list of its recorded step results; the
store keeps one history for each workflow id; a context is what one execution of a workflow body
works on: a private copy of the history and a cursor into it.

The engine never looks inside a recorded result, so results are of an arbitrary type `α` (`Value` in
Rust, `Any` in Python, `any` in Go, `Object` in Java, `unknown` in TypeScript). `ε` is the type of
the failures that are the application's own.
-/

namespace DurableExecution

/-- One recorded step result in the append-only history. -/
structure HistoryEvent (α : Type) where
  /-- The position of this event in the history. -/
  seq : ℕ
  /-- The id passed to `step` when the result was recorded. -/
  stepId : String
  /-- The value the step returned the first time it ran. -/
  result : α
deriving DecidableEq, Repr

/-- The ways an execution can end other than by returning a value. In the ports with exceptions
these are the exceptions that leave the workflow body. -/
inductive WorkflowError (ε : Type) where
  /-- A new step was recorded and persisted, so the body is run again from the top. -/
  | replay
  /-- Replay reached a step id that is not the one recorded at this position. -/
  | nonDeterministic (message : String)
  /-- A failure of the application, which the engine does not catch. -/
  | crash (failure : ε)
deriving DecidableEq, Repr

/-- What a call of a step, of a body or of `run` ends with. -/
abbrev Reply (ε α : Type) := Except (WorkflowError ε) α

/-- An in-memory append-only store. -/
structure HistoryStore (α : Type) where
  /-- The history of each workflow id, if there is one. -/
  data : String → Option (List (HistoryEvent α))

namespace HistoryStore

variable {α : Type}

/-- Builds an empty store. -/
def new : HistoryStore α := ⟨fun _ => none⟩

/-- A copy of the durable history for `wid` (empty if there is none). -/
def load (store : HistoryStore α) (wid : String) : List (HistoryEvent α) :=
  (store.data wid).getD []

/-- Durably records a copy of `history` under `wid`. -/
def save (store : HistoryStore α) (wid : String) (history : List (HistoryEvent α)) :
    HistoryStore α :=
  ⟨Function.update store.data wid (some history)⟩

@[simp] theorem load_new (wid : String) : (new : HistoryStore α).load wid = [] := rfl

@[simp] theorem load_save (store : HistoryStore α) (wid : String)
    (history : List (HistoryEvent α)) : (store.save wid history).load wid = history := by
  simp [load, save]

theorem load_save_of_ne (store : HistoryStore α) {wid other : String} (h : other ≠ wid)
    (history : List (HistoryEvent α)) :
    (store.save wid history).load other = store.load other := by
  simp [load, save, Function.update_of_ne h]

end HistoryStore

/-- What an execution of a workflow body is handed. In Rust it keeps the workflow id itself; the
other ports read it from the engine (see `Engine.target`). -/
structure WorkflowContext (α : Type) where
  /-- The workflow id the context was created for. -/
  wid : String
  /-- This execution's copy of the history. -/
  history : List (HistoryEvent α)
  /-- How many recorded events this execution was served. -/
  cursor : ℕ
deriving DecidableEq, Repr

/-- The text of the error that reports a changed workflow shape. Go writes the ids as quoted Go
strings (`%q`), the other ports in single quotes, as here. -/
def mismatchMessage (expected : String) (position : ℕ) (got : String) : String :=
  "non-deterministic workflow: expected step '" ++ expected ++ "' at position " ++
    toString position ++ ", got '" ++ got ++ "'"

namespace WorkflowContext

variable {ε α : Type}

/-- The context of a new execution. -/
def new (wid : String) (history : List (HistoryEvent α)) : WorkflowContext α := ⟨wid, history, 0⟩

/-- The first half of `step`: while the cursor is inside the history, answer from the history, or
report that the recorded id is another one. `none` means that the step has to run. -/
def serve (ctx : WorkflowContext α) (stepId : String) : Option (Reply ε α × WorkflowContext α) :=
  match ctx.history[ctx.cursor]? with
  | some ev =>
    if ev.stepId ≠ stepId then
      some (.error (.nonDeterministic (mismatchMessage ev.stepId ctx.cursor stepId)), ctx)
    else
      some (.ok ev.result, { ctx with cursor := ctx.cursor + 1 })
  | none => none

/-- The second half of `step`, once the step has run: append the result to the history and make it
durable under the id `target`. The cursor is not moved. -/
def record (ctx : WorkflowContext α) (target : String) (stepId : String) (result : α)
    (store : HistoryStore α) : WorkflowContext α × HistoryStore α :=
  let history := ctx.history ++ [⟨ctx.history.length, stepId, result⟩]
  ({ ctx with history }, store.save target history)

theorem serve_match {ctx : WorkflowContext α} {ev : HistoryEvent α}
    (h : ctx.history[ctx.cursor]? = some ev) :
    ctx.serve ev.stepId =
      some ((.ok ev.result : Reply ε α), { ctx with cursor := ctx.cursor + 1 }) := by
  simp [serve, h]

theorem serve_mismatch {ctx : WorkflowContext α} {ev : HistoryEvent α} {stepId : String}
    (h : ctx.history[ctx.cursor]? = some ev) (hne : ev.stepId ≠ stepId) :
    ctx.serve stepId =
      some ((.error (.nonDeterministic (mismatchMessage ev.stepId ctx.cursor stepId)) : Reply ε α),
        ctx) := by
  simp [serve, h, hne]

theorem serve_eq_none_iff {ctx : WorkflowContext α} {stepId : String} :
    (ctx.serve stepId : Option (Reply ε α × WorkflowContext α)) = none ↔
      ctx.history.length ≤ ctx.cursor := by
  unfold serve
  cases h : ctx.history[ctx.cursor]? with
  | none => simpa using h
  | some ev =>
    have : ctx.cursor < ctx.history.length := (List.getElem?_eq_some_iff.mp h).1
    by_cases hne : ev.stepId ≠ stepId <;> simp [hne, this]

/-- Serving moves the cursor only. -/
theorem serve_frame {ctx ctx' : WorkflowContext α} {stepId : String} {reply : Reply ε α}
    (h : ctx.serve stepId = some (reply, ctx')) :
    ctx'.wid = ctx.wid ∧ ctx'.history = ctx.history := by
  unfold serve at h
  split at h
  · split at h
    · obtain ⟨-, rfl⟩ := Prod.mk.inj (Option.some.inj h)
      exact ⟨rfl, rfl⟩
    · obtain ⟨-, rfl⟩ := Prod.mk.inj (Option.some.inj h)
      exact ⟨rfl, rfl⟩
  · cases h

end WorkflowContext

end DurableExecution
