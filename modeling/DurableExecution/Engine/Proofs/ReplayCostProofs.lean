import Mathlib.Algebra.Ring.Nat
import Mathlib.Tactic.Ring
import DurableExecution.Engine.Propagating

/-!
# Proofs: the cost of executing again from the top

Every execution of a body walks along the whole history before it comes to a new step. So the calls
of `step` that a run makes are known from the history it found and the events it appended, and their
number is quadratic in the number of these events.
-/

namespace DurableExecution

variable {σ ε α S : Type}

/-- The call of `step` that records `ev` at position `n`. -/
def recordingCall (ε : Type) (n : ℕ) (ev : HistoryEvent α) : StepCall ε α :=
  ⟨ev.stepId, n, true, .error .replay⟩

/-- The calls of `step` in the executions that append `new` to `h`, one event each. -/
def walks (ε : Type) : List (HistoryEvent α) → List (HistoryEvent α) → List (List (StepCall ε α))
  | _, [] => []
  | h, ev :: new =>
    (servedCalls ε 0 h ++ [recordingCall ε h.length ev]) :: walks ε (h ++ [ev]) new

theorem length_servedCalls (n : ℕ) (h : List (HistoryEvent α)) : (servedCalls ε n h).length = h.length := by
  induction h generalizing n with
  | nil => rfl
  | cons ev h ih => simp [servedCalls, ih]

/-- Each of these executions makes one call more than the one before it. -/
theorem sum_walks (h new : List (HistoryEvent α)) :
    2 * ((walks ε h new).map List.length).sum = new.length * (2 * h.length + new.length + 1) := by
  induction new generalizing h with
  | nil => simp [walks]
  | cons ev new ih =>
    have hfirst : (servedCalls ε 0 h ++ [recordingCall ε h.length ev]).length = h.length + 1 := by
      rw [List.length_append, length_servedCalls, List.length_singleton]
    have hrest := ih (h ++ [ev])
    rw [List.length_append, List.length_singleton] at hrest
    rw [walks, List.map_cons, List.sum_cons, hfirst, Nat.mul_add, hrest, List.length_cons]
    ring

/-- The calls of the last execution: it is served the first `i` events, and may make one call more,
which fails or is reported. -/
structure LastCalls (h : List (HistoryEvent α)) (i : ℕ) (reply : Reply ε α)
    (calls : List (StepCall ε α)) : Prop where
  le : i ≤ h.length
  walk : ∃ tail, calls = servedCalls ε 0 (h.take i) ++ tail ∧ tail.length ≤ 1 ∧
    ∀ v, reply = .ok v → tail = []

theorem LastCalls.length_le {h : List (HistoryEvent α)} {i : ℕ} {reply : Reply ε α}
    {calls : List (StepCall ε α)} (hl : LastCalls h i reply calls) :
    calls.length ≤ i + 1 ∧ ∀ v, reply = .ok v → calls.length = i := by
  obtain ⟨tail, rfl, htail, hok⟩ := hl.walk
  have hserved : (servedCalls ε 0 (h.take i)).length = i := by
    rw [length_servedCalls, List.length_take, Nat.min_eq_left hl.le]
  rw [List.length_append, hserved]
  refine ⟨by omega, fun v hv => ?_⟩
  rw [hok v hv, List.length_nil, Nat.add_zero]

variable {p : Propagating σ ε α S} {port : Port} {wid : String} {engine : Engine}

/-- A round that does not record a step is the last one. -/
theorem Round.lastCalls {h : List (HistoryEvent α)} {store : HistoryStore α} {world : σ}
    {x : Execution σ ε α} (hx : Round p wid h store world x) (hr : x.reply ≠ .error .replay) :
    x.store = store ∧ ∃ i, LastCalls h i x.reply x.calls ∧
      ((∃ s, p.feed p.start h = some s) → i = h.length) := by
  cases hx with
  | @returned i s reply hi hf hs =>
    refine ⟨rfl, i, ⟨hi, [], (List.append_nil _).symm, Nat.zero_le _, fun _ _ => rfl⟩, ?_⟩
    rintro ⟨s', hf'⟩
    rcases hi.lt_or_eq with hlt | heq
    · -- a body that can be fed the whole history calls a step here
      obtain ⟨t, f, k, ht, hn⟩ := Propagating.feed_prefix hf' hlt
      obtain rfl : s = t := Option.some.inj (hf.symm.trans ht)
      rw [hs] at hn
      cases hn
    · exact heq
  | @mismatch i s stepId f k hi hf hs hid =>
    refine ⟨rfl, i, ⟨hi.le, [_], rfl, Nat.le_refl _, fun v hv => by cases hv⟩, ?_⟩
    rintro ⟨s', hf'⟩
    obtain ⟨t, f', k', ht, hn⟩ := Propagating.feed_prefix hf' hi
    obtain rfl : s = t := Option.some.inj (hf.symm.trans ht)
    rw [hs] at hn
    exact absurd (Request.step.inj hn).1.symm hid
  | recorded hf hs hv => exact absurd rfl hr
  | @failed s stepId f k e world' hf hs hv =>
    refine ⟨rfl, h.length, ⟨Nat.le_refl _, [⟨stepId, h.length, true, .error (.crash e)⟩], ?_,
      Nat.le_refl _, fun v hv => by cases hv⟩, fun _ => rfl⟩
    rw [List.take_length]

/-- The loop of a body that returns `replay` of its own never ends: the history stays as it is, so the
body comes to the same place again. -/
theorem not_loops_of_replay {h : List (HistoryEvent α)} {i : ℕ} {s : S} (hi : i ≤ h.length)
    (hf : p.feed p.start (h.take i) = some s) (hs : p.next s = .ret (.error .replay))
    {store : HistoryStore α} {world : σ} {o : Outcome σ ε α} (hload : store.load wid = h) :
    ¬ Loops p.toWorkflow port wid engine store world o := by
  intro hloops
  induction hloops using Loops.induct with
  | @stop engine store world x hx hr =>
    rw [hload] at hx
    exact hr (hx.unique (executes_returned port engine wid store world hi hf hs) ▸ rfl)
  | @again engine store world x o hx hr ho ih =>
    rw [hload] at hx
    have hstore : x.store = store :=
      hx.unique (executes_returned port engine wid store world hi hf hs) ▸ rfl
    exact ih (hstore ▸ hload)

/-- A round that is followed by another one, in a loop that ends, has recorded a step at the end of the
history. -/
theorem Round.recorded_of_replay {store : HistoryStore α} {world : σ} {x : Execution σ ε α}
    {o : Outcome σ ε α} (hx : Round p wid (store.load wid) store world x)
    (hr : x.reply = .error .replay) (ho : Loops p.toWorkflow port wid engine x.store x.world o) :
    ∃ ev, x.store = store.save wid (store.load wid ++ [ev]) ∧
      x.calls = servedCalls ε 0 (store.load wid) ++ [recordingCall ε (store.load wid).length ev] ∧
      ∃ s, p.feed p.start (store.load wid ++ [ev]) = some s := by
  cases hx with
  | returned hi hf hs => exact absurd ho (not_loops_of_replay hi hf (hr ▸ hs) rfl)
  | mismatch hi hf hs hid => cases hr
  | recorded hf hs hv => exact ⟨_, rfl, rfl, _, Propagating.feed_snoc hf hs _ _⟩
  | failed hf hs hv => cases hr

/-- **The calls of a run.** -/
theorem Loops.walks {store : HistoryStore α} {world : σ} {o : Outcome σ ε α}
    (h : Loops p.toWorkflow port wid engine store world o) (he : engine.wid = wid) :
    ∃ new last i, o.store.load wid = store.load wid ++ new ∧
      o.executions = walks ε (store.load wid) new ++ [last] ∧
      LastCalls (o.store.load wid) i o.reply last ∧
      (new ≠ [] ∨ (∃ s, p.feed p.start (store.load wid) = some s) → i = (o.store.load wid).length) := by
  induction h using Loops.induct with
  | @stop engine store world x hx hr =>
    obtain ⟨hstore, i, hlast, hfull⟩ := (hx.round he).lastCalls hr
    refine ⟨[], x.calls, i, ?_, rfl, ?_, ?_⟩
    · rw [List.append_nil]
      exact congrArg (·.load wid) hstore
    · show LastCalls (x.store.load wid) i x.reply x.calls
      rw [hstore]
      exact hlast
    · show _ → i = (x.store.load wid).length
      rw [hstore]
      rintro (hnew | hfed)
      · exact absurd rfl hnew
      · exact hfull hfed
  | @again engine store world x o hx hr ho ih =>
    obtain ⟨ev, hstore, hcalls, hfed⟩ := (hx.round he).recorded_of_replay hr ho
    obtain ⟨new, last, i, hload, hexec, hlast, hfull⟩ := ih he
    have hsaved : x.store.load wid = store.load wid ++ [ev] := by
      rw [hstore]
      exact HistoryStore.load_save _ _ _
    rw [hsaved] at hload hexec hfull
    refine ⟨ev :: new, last, i, ?_, ?_, hlast, fun _ => hfull (Or.inr hfed)⟩
    · rw [hload, List.append_assoc, List.singleton_append]
    · show x.calls :: o.executions = _
      rw [hexec, hcalls]
      rfl

/-- **The cost of replay.** A run that finds `h` events and appends `k` of them calls `step`
`k (2 h + k + 1) / 2` times before its last execution, which makes at most one call more than there
are events. A run that succeeds after it has appended something walks along all of them once more. -/
theorem replay_cost (p : Propagating σ ε α S) (port : Port) (wid : String) (engine : Engine)
    (store : HistoryStore α) (world : σ) (o : Outcome σ ε α)
    (ho : Runs p.toWorkflow port wid engine store world o) :
    ∃ new last, o.store.load wid = store.load wid ++ new ∧
      o.executions = walks ε (store.load wid) new ++ [last] ∧
      2 * (o.executions.map List.length).sum =
        new.length * (2 * (store.load wid).length + new.length + 1) + 2 * last.length ∧
      last.length ≤ (store.load wid).length + new.length + 1 ∧
      ∀ v, o.reply = .ok v → new ≠ [] → last.length = (store.load wid).length + new.length := by
  obtain ⟨new, last, i, hload, hexec, hlast, hfull⟩ := Loops.walks (runs_iff.mp ho) rfl
  have hlen : (o.store.load wid).length = (store.load wid).length + new.length := by
    rw [hload, List.length_append]
  obtain ⟨hle, hok⟩ := hlast.length_le
  have hi := hlast.le
  refine ⟨new, last, hload, hexec, ?_, by omega, fun v hv hnew => ?_⟩
  · rw [hexec, List.map_append, List.sum_append, Nat.mul_add, sum_walks]
    rfl
  · rw [hok v hv, hfull (Or.inl hnew), hlen]

/-- A body of two steps, in the states before, between and after them. -/
def twoSteps : Propagating ℕ Empty ℕ (List ℕ) where
  start := []
  next
    | [] => .step "charge" (fun n => (.ok n, n + 1)) fun a => [a]
    | [a] => .step "ship" (fun n => (.ok n, n + 1)) fun b => [a, b]
    | a :: b :: _ => .ret (.ok (a + b))

/-- Two steps take five calls. -/
theorem replay_cost_two :
    ∃ o, Runs twoSteps.toWorkflow .rust "order-1" ⟨"", 0⟩ .new 10 o ∧
      (o.executions.map List.length).sum = 5 ∧
      ∃ new last, o.executions = walks Empty [] new ++ [last] ∧ last.length = new.length := by
  have ho : Runs twoSteps.toWorkflow .rust "order-1" ⟨"", 0⟩ .new 10 _ := ⟨6, rfl⟩
  obtain ⟨new, last, hload, hexec, -, -, hlast⟩ := replay_cost twoSteps .rust "order-1" ⟨"", 0⟩ .new
    10 _ ho
  refine ⟨_, ho, rfl, new, last, hexec, ?_⟩
  have hnew : new ≠ [] := by
    rintro rfl
    cases hload
  have hlen := hlast 21 rfl hnew
  simpa using hlen

end DurableExecution
