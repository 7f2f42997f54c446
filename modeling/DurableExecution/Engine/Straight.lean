import DurableExecution.Engine.Propagating

/-!
# Straight-through execution

What a workflow is for: the body executed once from top to bottom, without an engine. `Trace w n h
w'` says that `w`, started at position `n`, runs the steps of `h` one after the other, each with a
result that its step function returned in some world, and has `w'` left. A whole execution leaves a
`ret`.
-/

namespace DurableExecution

namespace Script

variable {σ ε α : Type}

/-- The execution of a script from position `n`: the events of the steps it takes, in order, and
what is left of it afterwards. -/
inductive Trace : Script σ ε α → ℕ → List (HistoryEvent α) → Script σ ε α → Prop where
  | nil (w : Script σ ε α) (n : ℕ) : Trace w n [] w
  | cons {stepId : String} {f : σ → α × σ} {k : α → Script σ ε α} {n : ℕ} {h : List (HistoryEvent α)}
      {w : Script σ ε α} (world : σ) (ht : Trace (k (f world).1) (n + 1) h w) :
      Trace (step stepId f k) n (⟨n, stepId, (f world).1⟩ :: h) w

theorem Trace.append {w w' w'' : Script σ ε α} {n : ℕ} {h h' : List (HistoryEvent α)}
    (ht : Trace w n h w') (ht' : Trace w' (n + h.length) h' w'') : Trace w n (h ++ h') w'' := by
  induction ht with
  | nil w n => simpa using ht'
  | @cons stepId f k n h w world _ ih =>
    refine .cons world (ih ?_)
    rw [List.length_cons] at ht'
    rwa [Nat.add_assoc, Nat.add_comm 1]

/-- One more step. -/
theorem Trace.snoc {w : Script σ ε α} {n : ℕ} {h : List (HistoryEvent α)} {stepId : String}
    {f : σ → α × σ} {k : α → Script σ ε α} (ht : Trace w n h (step stepId f k)) (world : σ) :
    Trace w n (h ++ [⟨n + h.length, stepId, (f world).1⟩]) (k (f world).1) :=
  ht.append (.cons world (.nil _ _))

/-- The engine, fed the events of an execution, follows it. -/
theorem Trace.feed {w w' : Script σ ε α} {n : ℕ} {h : List (HistoryEvent α)} (ht : Trace w n h w')
    (u : Script σ ε α) : u.body.feed w h = some w' := by
  induction ht with
  | nil w n => rfl
  | @cons stepId f k n h w world _ ih => simpa [Propagating.feed, body, next] using ih

/-- The event at position `i` of an execution from the start carries `seq = i`. -/
theorem Trace.seq {w w' : Script σ ε α} {n : ℕ} {h : List (HistoryEvent α)} (ht : Trace w n h w')
    {i : ℕ} (hi : i < h.length) : h[i].seq = n + i := by
  induction ht generalizing i with
  | nil w n => simp at hi
  | @cons stepId f k n h w world _ ih =>
    cases i with
    | zero => rfl
    | succ i =>
      have := ih (by simpa using hi)
      simp only [List.getElem_cons_succ, this]
      omega

theorem Trace.ownErrors {P : WorkflowError ε → Prop} {w w' : Script σ ε α} {n : ℕ}
    {h : List (HistoryEvent α)} (ht : Trace w n h w') (hw : w.OwnErrors P) : w'.OwnErrors P := by
  induction ht with
  | nil w n => exact hw
  | @cons stepId f k n h w world _ ih => exact ih (hw _)

/-- Executing `w` once straight through takes the steps of `h` and ends with `reply`. -/
def StraightThrough (w : Script σ ε α) (h : List (HistoryEvent α)) (reply : Reply ε α) : Prop :=
  w.Trace 0 h (ret reply)

/-- A straight-through execution is determined by the recorded results. -/
theorem Trace.unique {w : Script σ ε α} {n : ℕ} {h h' : List (HistoryEvent α)} {r r' : Reply ε α}
    (ht : Trace w n h (ret r)) (ht' : Trace w n h' (ret r'))
    (hres : ∀ (i : ℕ) (hi : i < h.length) (hi' : i < h'.length), h[i].result = h'[i].result) :
    h = h' ∧ r = r' := by
  induction w generalizing n h h' with
  | ret reply =>
    cases ht
    cases ht'
    exact ⟨rfl, rfl⟩
  | step stepId f k ih =>
    cases ht with
    | cons world ht =>
      cases ht' with
      | cons world' ht' =>
        have hv : (f world).1 = (f world').1 := hres 0 (by simp) (by simp)
        rw [hv] at ht ⊢
        obtain ⟨rfl, rfl⟩ := ih _ ht ht' fun i hi hi' => hres (i + 1) (by simpa) (by simpa)
        exact ⟨rfl, rfl⟩

end Script

end DurableExecution
