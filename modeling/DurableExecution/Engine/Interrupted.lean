import DurableExecution.Engine.Crash
import DurableExecution.Engine.Handling

/-!
# Bodies that handle failures, and crashes

The bodies of `Handling` again, with runs that are cut short at any point: while a step function runs,
while an exception is handled, between a step function and its save. The small steps are those of
`Crash`. They save under the id that the context keeps; while no other run starts, this is the id that
the engine keeps.
-/

namespace DurableExecution

namespace Handling

variable {σ ε α S : Type}

/-- The stores in which only runs of this body have written the history of `wid`, whether they ended
or were cut short. -/
inductive Interrupted (b : Handling σ ε α S) (wid : String) : HistoryStore α → Prop where
  | fresh {store : HistoryStore α} (h : store.load wid = []) : Interrupted b wid store
  | run {store : HistoryStore α} {engine : Engine} {world : σ} {o : Outcome σ ε α}
      (h : Interrupted b wid store) (ho : Runs b.toWorkflow .python wid engine store world o) :
      Interrupted b wid o.store
  | cut {store : HistoryStore α} (h : Interrupted b wid store) (engine : Engine) (world : σ) (n : ℕ) :
      Interrupted b wid
        ((Machine.micro b.toWorkflow wid)^[n] (.start b.toWorkflow wid engine store world)).store

/-- From `s` the body comes to `s'` by handling the exceptions of steps that raise. -/
inductive Raises (b : Handling σ ε α S) (s : S) : S → Prop where
  | refl : Raises b s s
  | raised {s' : S} {stepId : String} {e : ε} {effect : σ → σ} {k : Except ε α → S}
      (h : Raises b s s') (hs : b.next s' = .step stepId (.error e) effect k) :
      Raises b s (k (.error e))

end Handling

end DurableExecution
