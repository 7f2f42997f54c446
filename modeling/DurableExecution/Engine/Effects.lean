import DurableExecution.Engine.Fleet
import DurableExecution.Engine.Straight

/-!
# Effects that happen once

A crash between a step function and its save makes the next run invoke the step function again. This
is about when nobody can tell: the steps of a workflow work on their own part of the world, which is
what `see` shows, and each of them can be repeated right after it has run.
-/

namespace DurableExecution

namespace Script

variable {σ ε α υ : Type}

/-- Executes the script straight through, the first step at position `n`: the events, the reply and
the world at the end. -/
def straight : Script σ ε α → ℕ → σ → List (HistoryEvent α) × Reply ε α × σ
  | ret reply, _, world => ([], reply, world)
  | step stepId f k, n, world =>
    let (events, reply, after) := (k (f world).1).straight (n + 1) (f world).2
    (⟨n, stepId, (f world).1⟩ :: events, reply, after)

/-- The world after the first `i` steps of this execution. -/
def worldAfter : Script σ ε α → ℕ → σ → σ
  | ret _, _, world => world
  | step _ _ _, 0, world => world
  | step _ f k, i + 1, world => (k (f world).1).worldAfter i (f world).2

/-- `P` holds of every step function of the script, on every path. -/
def AllSteps (P : (σ → α × σ) → Prop) : Script σ ε α → Prop
  | ret _ => True
  | step _ f k => P f ∧ ∀ v, (k v).AllSteps P

/-- Each step of the straight-through execution can be repeated right after it has run: it returns the
same again, and leaves its part of the world as it is. -/
def Repeatable (see : σ → υ) : Script σ ε α → σ → Prop
  | ret _, _ => True
  | step _ f k, world => (f (f world).2).1 = (f world).1 ∧ see (f (f world).2).2 = see (f world).2 ∧
      (k (f world).1).Repeatable see (f world).2

end Script

section Parts

variable {σ α υ : Type}

/-- What a step function returns, and what it makes of its part of the world, depend on this part
only. -/
def SeesOnly (see : σ → υ) (f : σ → α × σ) : Prop :=
  ∀ x y, see x = see y → (f x).1 = (f y).1 ∧ see (f x).2 = see (f y).2

/-- The step function does not touch the part of another workflow. -/
def Leaves (see : σ → υ) (f : σ → α × σ) : Prop := ∀ x, see (f x).2 = see x

end Parts

namespace Fleet

variable {σ ε α υ S : Type}

/-- What happens outside leaves the part as it is. -/
def Apart (see : σ → υ) (as : List (FleetAct σ)) : Prop :=
  ∀ change, FleetAct.outside change ∈ as → ∀ x, see (change x) = see x

/-- The workflow `wid` cannot be told from one that is executed straight through, once, from
`world`. -/
structure ExactlyOnce (see : σ → υ) (v : Script σ ε α) (world : σ) (s : Fleet σ ε α S)
    (wid : String) : Prop where
  /-- What is recorded are the first events of that execution. -/
  recorded : s.store.load wid <+: (v.straight 0 world).1
  /-- A step function that was invoked returned what it returns there, and left its part of the world
  as it is left there, however often it was invoked. -/
  invoked : ∀ engine ctx stepId result k, s.jobs wid = some ⟨engine, .save ctx stepId result k⟩ →
    (v.straight 0 world).1[(s.store.load wid).length]? =
        some ⟨(s.store.load wid).length, stepId, result⟩ ∧
      see s.world = see (v.worldAfter ((s.store.load wid).length + 1) world)
  /-- A run that has returned has its reply, its history, and its part of the world. -/
  returned : ∀ engine reply, s.jobs wid = some ⟨engine, .returned reply⟩ →
    s.store.load wid = (v.straight 0 world).1 ∧ reply = (v.straight 0 world).2.1 ∧
      see s.world = see (v.straight 0 world).2.2

end Fleet

end DurableExecution
