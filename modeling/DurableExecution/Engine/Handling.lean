import Mathlib.Logic.Relation
import DurableExecution.Engine.Propagating

/-!
# Bodies that handle failures

A body whose step functions may raise an application exception, and which may catch it and go on
with other steps. A step function behaves the same way on every invocation: it has one outcome. The
engine's own signals, `replay` and the report of a different id, are not caught.

Executing such a body straight through, a step that raises hands its exception to the body. A run by
the engine does so too, but it leaves no event behind, so the next execution reaches the same call
with the event of a later step at its position.
-/

namespace DurableExecution

variable {σ ε α S : Type}

/-- What a body does next. -/
inductive Attempted (σ ε α S : Type) where
  /-- The body ends, with a value or with an exception. -/
  | ret (reply : Except ε α)
  /-- The body calls `ctx.step(stepId, fn)`, where `fn` has this outcome and this effect on the
  world, and goes on with the value or with the exception. -/
  | step (stepId : String) (outcome : Except ε α) (effect : σ → σ) (k : Except ε α → S)

/-- A deterministic body that may catch the exceptions of its step functions. -/
structure Handling (σ ε α S : Type) where
  start : S
  next : S → Attempted σ ε α S

/-- How the caller of `run` sees the end of a body. -/
def ownReply (reply : Except ε α) : Reply ε α := reply.mapError .crash

/-- A step function that behaves the same way on every invocation. -/
def behaves (outcome : Except ε α) (effect : σ → σ) : StepFn σ ε α :=
  fun world => (outcome, effect world)

namespace Handling

/-- What a step call ended with goes to the body, except for the engine's own signals, which
end it. -/
def handle (k : Except ε α → S) : Reply ε α → S ⊕ WorkflowError ε
  | .ok v => .inl (k (.ok v))
  | .error (.crash e) => .inl (k (.error e))
  | .error e => .inr e

/-- The body as the engine runs it. -/
def toWorkflow (b : Handling σ ε α S) : Workflow σ ε α (S ⊕ WorkflowError ε) where
  start := .inl b.start
  next
    | .inl s =>
      match b.next s with
      | .ret reply => .ret (ownReply reply)
      | .step stepId outcome effect k => .step stepId (behaves outcome effect) (handle k)
    | .inr e => .ret (.error e)

/-- What the body does as long as every step call is answered with a value. -/
def answered (b : Handling σ ε α S) : Propagating σ ε α S where
  start := b.start
  next s :=
    match b.next s with
    | .ret reply => .ret (ownReply reply)
    | .step stepId outcome effect k => .step stepId (behaves outcome effect) fun v => k (.ok v)

/-- The execution of the body straight through, from `s`, ends with `reply`. -/
inductive Straight (b : Handling σ ε α S) : S → Except ε α → Prop where
  | ret {s : S} {reply : Except ε α} (hs : b.next s = .ret reply) : Straight b s reply
  | step {s : S} {stepId : String} {outcome : Except ε α} {effect : σ → σ} {k : Except ε α → S}
      {reply : Except ε α} (hs : b.next s = .step stepId outcome effect k)
      (h : Straight b (k outcome) reply) : Straight b s reply

/-- From `s` every further step raises, and the body ends with `reply`. -/
inductive EndsQuietly (b : Handling σ ε α S) : S → Except ε α → Prop where
  | ret {s : S} {reply : Except ε α} (hs : b.next s = .ret reply) : EndsQuietly b s reply
  | raised {s : S} {stepId : String} {e : ε} {effect : σ → σ} {k : Except ε α → S}
      {reply : Except ε α} (hs : b.next s = .step stepId (.error e) effect k)
      (h : EndsQuietly b (k (.error e)) reply) : EndsQuietly b s reply

/-- From `s` the first step that does not raise is `stepId`, and it returns `v`. -/
inductive FirstReturn (b : Handling σ ε α S) : S → String → α → Prop where
  | here {s : S} {stepId : String} {v : α} {effect : σ → σ} {k : Except ε α → S}
      (hs : b.next s = .step stepId (.ok v) effect k) : FirstReturn b s stepId v
  | raised {s : S} {stepId stepId' : String} {v : α} {e : ε} {effect : σ → σ} {k : Except ε α → S}
      (hs : b.next s = .step stepId (.error e) effect k)
      (h : FirstReturn b (k (.error e)) stepId' v) : FirstReturn b s stepId' v

/-- From `s` the value of the first step that does not raise answers the call that is made in `s`,
which has the same id, and leads to `s'`. -/
def Answers (b : Handling σ ε α S) (s s' : S) : Prop :=
  ∃ stepId v outcome effect k, b.next s = .step stepId outcome effect k ∧
    b.FirstReturn s stepId v ∧ s' = k (.ok v)

/-- The body comes to `s` when each of its calls in turn is answered so. -/
def Resumed (b : Handling σ ε α S) (s : S) : Prop := Relation.ReflTransGen b.Answers b.start s

/-- The first step that does not raise has the id of the call that is made in `s`. -/
def IdsAgree (b : Handling σ ε α S) (s : S) : Prop :=
  ∀ stepId v stepId' outcome effect k, b.FirstReturn s stepId v →
    b.next s = .step stepId' outcome effect k → stepId' = stepId

/-- The stores in which only runs of this body have written the history of `wid`. -/
inductive Written (b : Handling σ ε α S) (wid : String) : HistoryStore α → Prop where
  | fresh {store : HistoryStore α} (h : store.load wid = []) : Written b wid store
  | run {store : HistoryStore α} {engine : Engine} {world : σ} {o : Outcome σ ε α}
      (h : Written b wid store) (ho : Runs b.toWorkflow .python wid engine store world o) :
      Written b wid o.store

end Handling

end DurableExecution
