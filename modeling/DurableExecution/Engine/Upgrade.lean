import DurableExecution.Engine.Crash
import DurableExecution.Engine.Proofs.ShapeProofs

/-!
# New versions of a workflow

Instances of a workflow are in flight when its code is replaced. The engine has no versions: it runs
the new body on the histories that the old body has left. What it checks is the id of each step that
the new body asks for, so there are two ways in which the new body can part with a history: it asks
for another id, which is reported, and it returns before the end, which is not.
-/

namespace DurableExecution

variable {σ ε α : Type}

/-- The new version takes every step that the old version takes, with the same id, whatever the step
functions of the old version return. What the new step functions do, and what the new version does
after the end of the old one, is left open. -/
inductive Script.ExtendedBy : Script σ ε α → Script σ ε α → Prop where
  | ret (reply : Reply ε α) (new : Script σ ε α) : ExtendedBy (ret reply) new
  | step {stepId : String} {f f' : σ → α × σ} {k k' : α → Script σ ε α}
      (hk : ∀ world, ExtendedBy (k (f world).1) (k' (f world).1)) :
      ExtendedBy (step stepId f k) (step stepId f' k')

/-- A run takes over the history that is stored for `wid`: its last execution asks for every recorded
step and for nothing else, it keeps what was stored, and it invokes the step functions behind the end
of that only, each of them once. -/
structure TakesOver (wid : String) (store : HistoryStore α) (o : Outcome σ ε α) : Prop where
  asked : o.lastIds = (o.store.load wid).map (·.stepId)
  kept : store.load wid <+: o.store.load wid
  invoked : List.range (store.load wid).length ++ o.invoked = List.range (o.store.load wid).length

/-- A run parts with the history that is stored for `wid` before its end: it returns after it was
answered the first `i` events, or it asks for another id then, which is reported. It has done nothing
else. -/
structure PartsWith (wid : String) (store : HistoryStore α) (world : σ) (o : Outcome σ ε α) :
    Prop where
  sameStore : o.store = store
  sameWorld : o.world = world
  invoked : o.invoked = []
  stops : ∃ i, ∃ hi : i < (store.load wid).length,
    o.lastIds = ((store.load wid).take i).map (·.stepId) ∨
    ∃ stepId, stepId ≠ (store.load wid)[i].stepId ∧
      o.lastIds = ((store.load wid).take i).map (·.stepId) ++ [stepId] ∧
      o.reply = .error (.nonDeterministic (mismatchMessage (store.load wid)[i].stepId i stepId))

end DurableExecution
