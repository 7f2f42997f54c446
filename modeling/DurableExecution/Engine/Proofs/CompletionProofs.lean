import Mathlib.Tactic.Set
import DurableExecution.Engine.Straight

/-!
# Proofs: a run of a script completes

From any history that a script has followed, the loop of `run` takes the remaining steps one
execution at a time, and ends with what the straight-through execution ends with. The induction is
on what is left of the script: the loop itself has no counter.
-/

namespace DurableExecution

variable {σ ε α : Type}

/-- The executions of a run that starts with the history `seen` and records the events of `new`. -/
def recordingRounds (ε : Type) : List (HistoryEvent α) → List (HistoryEvent α) →
    List (List (StepCall ε α))
  | seen, [] => [servedCalls ε 0 seen]
  | seen, ev :: new =>
    (servedCalls ε 0 seen ++ [⟨ev.stepId, seen.length, true, .error .replay⟩]) ::
      recordingRounds ε (seen ++ [ev]) new

/-- The positions at which an execution invoked a step function, in order. -/
def invokedPositions (calls : List (StepCall ε α)) : List ℕ :=
  (calls.filter (·.invoked)).map (·.position)

/-- The positions at which a run invoked a step function, in order. -/
def Outcome.invoked (o : Outcome σ ε α) : List ℕ := o.executions.flatMap invokedPositions

@[simp] theorem invokedPositions_servedCalls (n : ℕ) (h : List (HistoryEvent α)) :
    invokedPositions (servedCalls ε n h) = [] := by
  simp [invokedPositions]

theorem invoked_recordingRounds (seen new : List (HistoryEvent α)) :
    (recordingRounds ε seen new).flatMap invokedPositions = List.range' seen.length new.length := by
  induction new generalizing seen with
  | nil => simp [recordingRounds]
  | cons ev new ih =>
    have h := ih (seen ++ [ev])
    rw [List.length_append, List.length_singleton] at h
    rw [recordingRounds, List.flatMap_cons, h, List.length_cons, List.range'_succ]
    simp [invokedPositions]

/-- What a completed run of a script leaves behind: the steps of `new` were taken from what was left
of the script, and recorded. -/
structure Completed (left : Script σ ε α) (wid : String) (engine : Engine) (store : HistoryStore α)
    (o : Outcome σ ε α) (new : List (HistoryEvent α)) : Prop where
  trace : left.Trace (store.load wid).length new (.ret o.reply)
  load : o.store.load wid = store.load wid ++ new
  other : ∀ wid', wid' ≠ wid → o.store.load wid' = store.load wid'
  engine : o.engine = { engine with replays := engine.replays + new.length }
  executions : o.executions = recordingRounds ε (store.load wid) new

variable {w : Script σ ε α} {port : Port} {wid : String} {engine : Engine}

/-- A script that is left with a `ret` returns in this execution. -/
theorem completes_ret {reply : Reply ε α} {store : HistoryStore α} (world : σ)
    (hf : w.feed (store.load wid) = some (.ret reply)) (hr : reply ≠ .error .replay) :
    ∃ o, Loops w.toWorkflow port wid engine store world o ∧
      Completed (.ret reply) wid engine store o [] := by
  have hfull : w.body.feed w.body.start ((store.load wid).take (store.load wid).length) =
      some (.ret reply) := by rw [List.take_length]; exact hf
  have hx := executes_returned port engine wid store world le_rfl hfull rfl
  refine ⟨_, loops_iff.mpr ⟨_, hx, Or.inr ⟨hr, rfl⟩⟩, ?_⟩
  exact ⟨.nil _ _, by simp, fun _ _ => rfl, rfl, by simp [recordingRounds]⟩

/-- **A run of a script completes**, from any history the script has followed. -/
theorem completes (left : Script σ ε α) (hown : left.OwnErrors (· ≠ .replay))
    (he : engine.wid = wid) (store : HistoryStore α) (world : σ)
    (hf : w.feed (store.load wid) = some left) :
    ∃ o new, Loops w.toWorkflow port wid engine store world o ∧
      Completed left wid engine store o new := by
  induction left generalizing engine store world with
  | ret reply =>
    have hr : reply ≠ .error .replay := by
      rintro rfl
      exact hown rfl
    obtain ⟨o, ho, hc⟩ := completes_ret world hf hr
    exact ⟨o, [], ho, hc⟩
  | step stepId f k ih =>
    set h := store.load wid with hh
    set ev : HistoryEvent α := ⟨h.length, stepId, (f world).1⟩ with hev
    have hload : (store.save wid (h ++ [ev])).load wid = h ++ [ev] := HistoryStore.load_save _ _ _
    have hf' : w.feed ((store.save wid (h ++ [ev])).load wid) = some (k (f world).1) := by
      rw [hload]
      exact Propagating.feed_snoc hf rfl _ _
    -- the execution records the step; the rest is left to the executions that follow
    have hv : (fun world => (Except.ok (f world).1, (f world).2) : StepFn σ ε α) world =
        (.ok (f world).1, (f world).2) := rfl
    have hx := executes_recorded port store he hf rfl hv
    have he' : ({ engine with replays := engine.replays + 1 } : Engine).wid = wid := he
    obtain ⟨o, new, ho, hc⟩ := ih (f world).1 (hown _) he' (store.save wid (h ++ [ev])) (f world).2 hf'
    refine ⟨_, ev :: new, loops_iff.mpr ⟨_, hx, Or.inl ⟨rfl, o, ho, rfl⟩⟩, ?_⟩
    have htrace := hc.trace
    rw [hload, List.length_append, List.length_singleton] at htrace
    refine ⟨.cons world htrace, ?_, ?_, ?_, ?_⟩
    · rw [hc.load, hload, List.append_assoc, List.singleton_append]
    · intro wid' hne
      rw [hc.other wid' hne, HistoryStore.load_save_of_ne _ hne]
    · show o.engine = _
      rw [hc.engine]
      simp only [List.length_cons, Engine.mk.injEq, true_and]
      omega
    · show _ :: o.executions = _
      rw [hc.executions, hload, recordingRounds]

end DurableExecution
