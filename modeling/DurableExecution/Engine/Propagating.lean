import DurableExecution.Engine.Run

/-!
# Bodies that propagate step errors

A body that calls `ctx.step(...)?` hands every error of a step straight back to the engine, so it
only ever continues with a value. `Propagating` is the type of these bodies and `toWorkflow` is the
`?`. `Script` is the type of those with finitely many steps on every path and step functions that
return.

`feed` runs a body on recorded results alone, without an engine: it is what the theorems compare the
engine with. `Round` lists everything one execution of a propagating body can do.
-/

namespace DurableExecution

variable {σ ε α S : Type}

/-- What a propagating body does next. -/
inductive Request (σ ε α S : Type) where
  /-- The body ends, with a value or with an error of its own. -/
  | ret (reply : Reply ε α)
  /-- The body calls `ctx.step(stepId, f)?` and goes on with the value. -/
  | step (stepId : String) (f : StepFn σ ε α) (k : α → S)

/-- A deterministic body that propagates every error of `ctx.step`. -/
structure Propagating (σ ε α S : Type) where
  start : S
  next : S → Request σ ε α S

namespace Propagating

/-- The `?` operator: a value goes to the body, an error ends it. -/
def toWorkflow (p : Propagating σ ε α S) : Workflow σ ε α (S ⊕ WorkflowError ε) where
  start := .inl p.start
  next
    | .inl s =>
      match p.next s with
      | .ret reply => .ret reply
      | .step stepId f k => .step stepId f fun
        | .ok v => .inl (k v)
        | .error e => .inr e
    | .inr e => .ret (.error e)

@[simp] theorem toWorkflow_start (p : Propagating σ ε α S) : p.toWorkflow.start = .inl p.start := rfl

/-- The state a body is in after it was fed the events of `h`, if it asks for their ids in order. -/
def feed (p : Propagating σ ε α S) : S → List (HistoryEvent α) → Option S
  | s, [] => some s
  | s, ev :: h =>
    match p.next s with
    | .ret _ => none
    | .step stepId _ k => if ev.stepId = stepId then p.feed (k ev.result) h else none

variable {p : Propagating σ ε α S}

theorem feed_append (s : S) (h h' : List (HistoryEvent α)) :
    p.feed s (h ++ h') = (p.feed s h).bind fun s' => p.feed s' h' := by
  induction h generalizing s with
  | nil => rfl
  | cons ev h ih =>
    simp only [List.cons_append, feed]
    cases p.next s with
    | ret reply => rfl
    | step stepId f k =>
      by_cases hid : ev.stepId = stepId
      · simp only [hid, if_true]; exact ih _
      · simp only [hid, if_false, Option.bind_none]

/-- Feeding one more event. -/
theorem feed_snoc {s s' : S} {h : List (HistoryEvent α)} {stepId : String} {f : StepFn σ ε α}
    {k : α → S} (hf : p.feed s h = some s') (hs : p.next s' = .step stepId f k) (seq : ℕ) (v : α) :
    p.feed s (h ++ [⟨seq, stepId, v⟩]) = some (k v) := by
  simp [feed_append, hf, feed, hs]

/-- A body that was fed all of `h` asked for a step after every proper prefix of it. -/
theorem feed_prefix {s s' : S} {h : List (HistoryEvent α)} (hf : p.feed s h = some s') {i : ℕ}
    (hi : i < h.length) :
    ∃ t f k, p.feed s (h.take i) = some t ∧ p.next t = .step h[i].stepId f k := by
  have hsplit : h = h.take i ++ h[i] :: h.drop (i + 1) := by simp
  rw [hsplit, feed_append] at hf
  obtain ⟨t, ht, hrest⟩ := Option.bind_eq_some_iff.mp hf
  cases hn : p.next t with
  | ret reply => simp [feed, hn] at hrest
  | step stepId f k =>
    by_cases hid : h[i].stepId = stepId
    · exact ⟨t, f, k, ht, by rw [hn, hid]⟩
    · simp [feed, hn, hid] at hrest

/-- Fed a history, a body consumes all of it, or it stops before some event: it returns there, or it
asks for another id. -/
theorem feed_cases (p : Propagating σ ε α S) (s : S) (h : List (HistoryEvent α)) :
    (∃ s', p.feed s h = some s') ∨
    ∃ i s', ∃ hi : i < h.length, p.feed s (h.take i) = some s' ∧
      ((∃ reply, p.next s' = .ret reply) ∨
       ∃ stepId f k, p.next s' = .step stepId f k ∧ h[i].stepId ≠ stepId) := by
  induction h generalizing s with
  | nil => exact Or.inl ⟨s, rfl⟩
  | cons ev h ih =>
    cases hn : p.next s with
    | ret reply => exact Or.inr ⟨0, s, by simp, rfl, Or.inl ⟨reply, hn⟩⟩
    | step stepId f k =>
      by_cases hid : ev.stepId = stepId
      · rcases ih (k ev.result) with ⟨s', hs'⟩ | ⟨i, s', hi, hs', hstop⟩
        · exact Or.inl ⟨s', by simp [feed, hn, hid, hs']⟩
        · refine Or.inr ⟨i + 1, s', by simpa using hi, ?_, by simpa using hstop⟩
          simp [feed, hn, hid, hs']
      · exact Or.inr ⟨0, s, by simp, rfl, Or.inr ⟨stepId, f, k, hn, hid⟩⟩

end Propagating

/-! ## One execution of a propagating body -/

/-- The calls of `step` that are answered from the history `h`, the first of them at position
`n`. -/
def servedCalls (ε : Type) (n : ℕ) : List (HistoryEvent α) → List (StepCall ε α)
  | [] => []
  | ev :: h => ⟨ev.stepId, n, false, .ok ev.result⟩ :: servedCalls ε (n + 1) h

@[simp] theorem map_stepId_servedCalls (n : ℕ) (h : List (HistoryEvent α)) :
    (servedCalls ε n h).map (·.stepId) = h.map (·.stepId) := by
  induction h generalizing n with
  | nil => rfl
  | cons ev h ih => simp [servedCalls, ih]

theorem not_invoked_of_mem_servedCalls {n : ℕ} {h : List (HistoryEvent α)} {c : StepCall ε α}
    (hc : c ∈ servedCalls ε n h) : c.invoked = false := by
  induction h generalizing n with
  | nil => simp [servedCalls] at hc
  | cons ev h ih =>
    rcases List.mem_cons.mp hc with rfl | hc
    · rfl
    · exact ih hc

@[simp] theorem filter_invoked_servedCalls (n : ℕ) (h : List (HistoryEvent α)) :
    (servedCalls ε n h).filter (·.invoked) = [] := by
  rw [List.filter_eq_nil_iff]
  intro c hc
  simp [not_invoked_of_mem_servedCalls hc]

/-- Everything that one execution of a propagating body can do with the history `h` that is stored
for `wid`. -/
inductive Round (p : Propagating σ ε α S) (wid : String) (h : List (HistoryEvent α))
    (store : HistoryStore α) (world : σ) : Execution σ ε α → Prop where
  /-- The body returns after it was served the first `i` events. -/
  | returned {i : ℕ} {s : S} {reply : Reply ε α} (hi : i ≤ h.length)
      (hf : p.feed p.start (h.take i) = some s) (hs : p.next s = .ret reply) :
      Round p wid h store world ⟨reply, ⟨wid, h, i⟩, store, world, servedCalls ε 0 (h.take i)⟩
  /-- The body asks for another id than the one recorded at position `i`. -/
  | mismatch {i : ℕ} {s : S} {stepId : String} {f : StepFn σ ε α} {k : α → S} (hi : i < h.length)
      (hf : p.feed p.start (h.take i) = some s) (hs : p.next s = .step stepId f k)
      (hid : h[i].stepId ≠ stepId) :
      Round p wid h store world
        ⟨.error (.nonDeterministic (mismatchMessage h[i].stepId i stepId)), ⟨wid, h, i⟩, store, world,
          servedCalls ε 0 (h.take i) ++ [⟨stepId, i, false,
            .error (.nonDeterministic (mismatchMessage h[i].stepId i stepId))⟩]⟩
  /-- The body asks for a step after the last event, and the step is recorded. -/
  | recorded {s : S} {stepId : String} {f : StepFn σ ε α} {k : α → S} {v : α} {world' : σ}
      (hf : p.feed p.start h = some s) (hs : p.next s = .step stepId f k)
      (hv : f world = (.ok v, world')) :
      Round p wid h store world
        ⟨.error .replay, ⟨wid, h ++ [⟨h.length, stepId, v⟩], h.length⟩,
          store.save wid (h ++ [⟨h.length, stepId, v⟩]), world',
          servedCalls ε 0 h ++ [⟨stepId, h.length, true, .error .replay⟩]⟩
  /-- The body asks for a step after the last event, and the step function fails. -/
  | failed {s : S} {stepId : String} {f : StepFn σ ε α} {k : α → S} {e : ε} {world' : σ}
      (hf : p.feed p.start h = some s) (hs : p.next s = .step stepId f k)
      (hv : f world = (.error e, world')) :
      Round p wid h store world
        ⟨.error (.crash e), ⟨wid, h, h.length⟩, store, world',
          servedCalls ε 0 h ++ [⟨stepId, h.length, true, .error (.crash e)⟩]⟩

/-- In the states `emb s` the workflow `w` calls the steps that `p` calls in `s`, and it goes on
with a value as `p` does. -/
def Serves {T : Type} (w : Workflow σ ε α T) (p : Propagating σ ε α S) (emb : S → T) : Prop :=
  ∀ s stepId f k, p.next s = .step stepId f k →
    ∃ g k', w.next (emb s) = .step stepId g k' ∧ ∀ v, k' (.ok v) = emb (k v)

theorem Propagating.serves (p : Propagating σ ε α S) : Serves p.toWorkflow p Sum.inl := by
  intro s stepId f k hs
  refine ⟨f, fun | .ok v => .inl (k v) | .error e => .inr e, ?_, fun _ => rfl⟩
  simp only [toWorkflow, hs]

section Exec

variable {p : Propagating σ ε α S} {port : Port} {engine : Engine} {wid : String}

/-- A propagating body that was handed an error ends with it. -/
theorem executes_inr {e : WorkflowError ε} {ctx : WorkflowContext α} {store : HistoryStore α}
    {world : σ} :
    Executes p.toWorkflow port engine (.inr e) ctx store world ⟨.error e, ctx, store, world, []⟩ :=
  (executes_ret_iff rfl).mpr rfl

/-- A state of the body that returns. -/
theorem executes_inl_ret {s : S} {reply : Reply ε α} (hs : p.next s = .ret reply)
    {ctx : WorkflowContext α} {store : HistoryStore α} {world : σ} :
    Executes p.toWorkflow port engine (.inl s) ctx store world ⟨reply, ctx, store, world, []⟩ := by
  have hn : p.toWorkflow.next (.inl s) = .ret reply := by simp [Propagating.toWorkflow, hs]
  exact (executes_ret_iff hn).mpr rfl

/-- A state of the body that calls a step which ends with an error. -/
theorem executes_inl_error {s : S} {stepId : String} {f : StepFn σ ε α} {k : α → S}
    {e : WorkflowError ε} {ctx : WorkflowContext α} {store : HistoryStore α} {world : σ}
    {r : Stepped σ ε α} (hs : p.next s = .step stepId f k)
    (hr : ctx.step port engine stepId f store world = r) (hv : r.reply = .error e) :
    Executes p.toWorkflow port engine (.inl s) ctx store world
      ⟨.error e, r.context, r.store, r.world, [⟨stepId, ctx.cursor, r.invoked, .error e⟩]⟩ := by
  have hn : p.toWorkflow.next (.inl s) = .step stepId f fun
      | .ok v => .inl (k v)
      | .error e => .inr e := by simp [Propagating.toWorkflow, hs]
  refine (executes_step_iff hn hr).mpr ⟨⟨.error e, r.context, r.store, r.world, []⟩, ?_, by rw [hv]⟩
  simpa only [hv] using executes_inr

variable {T : Type} {w : Workflow σ ε α T} {emb : S → T}

variable (port engine wid) in
/-- While the recorded ids match, an execution walks along the history without running anything. -/
theorem executes_feed (hw : Serves w p emb) {s s' : S} (seen h rest : List (HistoryEvent α))
    (store : HistoryStore α) (world : σ) {x : Execution σ ε α} (hf : p.feed s h = some s') :
    Executes w port engine (emb s) ⟨wid, seen ++ h ++ rest, seen.length⟩ store world x ↔
      ∃ y, Executes w port engine (emb s') ⟨wid, seen ++ h ++ rest, seen.length + h.length⟩ store
        world y ∧ x = { y with calls := servedCalls ε seen.length h ++ y.calls } := by
  induction h generalizing s seen x with
  | nil =>
    obtain rfl : s = s' := by simpa [Propagating.feed] using hf
    simp [servedCalls]
  | cons ev h ih =>
    cases hn : p.next s with
    | ret reply => simp [Propagating.feed, hn] at hf
    | step stepId f k =>
      by_cases hid : ev.stepId = stepId
      · subst hid
        obtain ⟨g, k', hg, hk⟩ := hw s _ f k hn
        have hf' : p.feed (k ev.result) h = some s' := by simpa [Propagating.feed, hn] using hf
        have hctx : (⟨wid, seen ++ ev :: h ++ rest, seen.length⟩ : WorkflowContext α).history[
            seen.length]? = some ev := by simp
        have hnext : (⟨wid, seen ++ ev :: h ++ rest, seen.length + 1⟩ : WorkflowContext α) =
            ⟨wid, (seen ++ [ev]) ++ h ++ rest, (seen ++ [ev]).length⟩ := by simp
        have hend : (⟨wid, seen ++ ev :: h ++ rest, seen.length + (ev :: h).length⟩ :
            WorkflowContext α) =
              ⟨wid, (seen ++ [ev]) ++ h ++ rest, (seen ++ [ev]).length + h.length⟩ := by
          simp only [List.append_assoc, List.cons_append, List.nil_append, List.length_append,
            List.length_cons, List.length_nil, WorkflowContext.mk.injEq, true_and]
          omega
        rw [executes_step_iff hg (step_of_match port engine hctx g store world), hk, hend]
        simp only [hnext, ih (seen ++ [ev]) hf']
        constructor
        · rintro ⟨y, ⟨z, hz, rfl⟩, rfl⟩
          exact ⟨z, hz, by simp [servedCalls]⟩
        · rintro ⟨z, hz, rfl⟩
          exact ⟨_, ⟨z, hz, rfl⟩, by simp [servedCalls]⟩
      · simp [Propagating.feed, hn, hid] at hf

variable (port engine wid) in
/-- An execution that stops at position `i` of the history walks along the first `i` events
first. -/
theorem executes_take (hw : Serves w p emb) {h : List (HistoryEvent α)} {i : ℕ} {s : S}
    (hi : i ≤ h.length) (store : HistoryStore α) (world : σ) {x : Execution σ ε α}
    (hf : p.feed p.start (h.take i) = some s) :
    Executes w port engine (emb p.start) (.new wid h) store world x ↔
      ∃ y, Executes w port engine (emb s) ⟨wid, h, i⟩ store world y ∧
        x = { y with calls := servedCalls ε 0 (h.take i) ++ y.calls } := by
  have hwalk := executes_feed port engine wid hw [] (h.take i) (h.drop i) store world hf (x := x)
  simpa [WorkflowContext.new, hi] using hwalk

section

variable {h : List (HistoryEvent α)} {store : HistoryStore α} {world world' : σ} {s : S} {i : ℕ}
  {stepId : String} {f : StepFn σ ε α} {k : α → S}

variable (port engine wid store) in
theorem executes_returned (world : σ) {reply : Reply ε α} (hi : i ≤ h.length)
    (hf : p.feed p.start (h.take i) = some s) (hs : p.next s = .ret reply) :
    Executes p.toWorkflow port engine p.toWorkflow.start (.new wid h) store world
      ⟨reply, ⟨wid, h, i⟩, store, world, servedCalls ε 0 (h.take i)⟩ := by
  simpa using (executes_take port engine wid p.serves hi store world hf).mpr
    ⟨_, executes_inl_ret hs, rfl⟩

variable (port engine wid store) in
theorem executes_mismatch (world : σ) (hi : i < h.length) (hf : p.feed p.start (h.take i) = some s)
    (hs : p.next s = .step stepId f k) (hid : h[i].stepId ≠ stepId) :
    Executes p.toWorkflow port engine p.toWorkflow.start (.new wid h) store world
      ⟨.error (.nonDeterministic (mismatchMessage h[i].stepId i stepId)), ⟨wid, h, i⟩, store, world,
        servedCalls ε 0 (h.take i) ++ [⟨stepId, i, false,
          .error (.nonDeterministic (mismatchMessage h[i].stepId i stepId))⟩]⟩ := by
  have hev : (⟨wid, h, i⟩ : WorkflowContext α).history[i]? = some h[i] := List.getElem?_eq_getElem hi
  have hstep := step_of_mismatch port engine hev hid f store world
  exact (executes_take port engine wid p.serves hi.le store world hf).mpr
    ⟨_, executes_inl_error hs hstep rfl, rfl⟩

variable (port store) in
theorem executes_recorded (he : engine.wid = wid) {v : α} (hf : p.feed p.start h = some s)
    (hs : p.next s = .step stepId f k) (hv : f world = (.ok v, world')) :
    Executes p.toWorkflow port engine p.toWorkflow.start (.new wid h) store world
      ⟨.error .replay, ⟨wid, h ++ [⟨h.length, stepId, v⟩], h.length⟩,
        store.save wid (h ++ [⟨h.length, stepId, v⟩]), world',
        servedCalls ε 0 h ++ [⟨stepId, h.length, true, .error .replay⟩]⟩ := by
  have hfull : p.feed p.start (h.take h.length) = some s := by rw [List.take_length, hf]
  have htarget : engine.target port (⟨wid, h, h.length⟩ : WorkflowContext α) = wid :=
    Engine.target_eq he rfl
  have hend : (⟨wid, h, h.length⟩ : WorkflowContext α).history.length ≤ h.length := le_rfl
  have hstep := step_of_ok port engine stepId hend hv store
  rw [htarget] at hstep
  simpa using (executes_take port engine wid p.serves le_rfl store world hfull).mpr
    ⟨_, executes_inl_error hs hstep rfl, rfl⟩

variable (port engine wid store) in
theorem executes_failed {e : ε} (hf : p.feed p.start h = some s) (hs : p.next s = .step stepId f k)
    (hv : f world = (.error e, world')) :
    Executes p.toWorkflow port engine p.toWorkflow.start (.new wid h) store world
      ⟨.error (.crash e), ⟨wid, h, h.length⟩, store, world',
        servedCalls ε 0 h ++ [⟨stepId, h.length, true, .error (.crash e)⟩]⟩ := by
  have hfull : p.feed p.start (h.take h.length) = some s := by rw [List.take_length, hf]
  have hend : (⟨wid, h, h.length⟩ : WorkflowContext α).history.length ≤ h.length := le_rfl
  have hstep := step_of_error port engine stepId hend hv store
  simpa using (executes_take port engine wid p.serves le_rfl store world hfull).mpr
    ⟨_, executes_inl_error hs hstep rfl, rfl⟩

end

/-- **One execution of a propagating body** always ends, and `Round` says how. -/
theorem round_exists (p : Propagating σ ε α S) (port : Port) (he : engine.wid = wid)
    (h : List (HistoryEvent α)) (store : HistoryStore α) (world : σ) :
    ∃ x, Executes p.toWorkflow port engine p.toWorkflow.start (.new wid h) store world x ∧
      Round p wid h store world x := by
  rcases p.feed_cases p.start h with ⟨s, hf⟩ | ⟨i, s, hi, hf, ⟨reply, hs⟩ | ⟨stepId, f, k, hs, hid⟩⟩
  · cases hs : p.next s with
    | ret reply =>
      have hfull : p.feed p.start (h.take h.length) = some s := by rw [List.take_length, hf]
      exact ⟨_, executes_returned port engine wid store world le_rfl hfull hs,
        .returned le_rfl hfull hs⟩
    | step stepId f k =>
      obtain ⟨reply, world', hv⟩ : ∃ reply world', f world = (reply, world') := ⟨_, _, rfl⟩
      cases reply with
      | ok v => exact ⟨_, executes_recorded port store he hf hs hv, .recorded hf hs hv⟩
      | error e => exact ⟨_, executes_failed port engine wid store hf hs hv, .failed hf hs hv⟩
  · exact ⟨_, executes_returned port engine wid store world hi.le hf hs, .returned hi.le hf hs⟩
  · exact ⟨_, executes_mismatch port engine wid store world hi hf hs hid, .mismatch hi hf hs hid⟩

/-- An execution of a propagating body is one of the four rounds. -/
theorem Executes.round (he : engine.wid = wid) {h : List (HistoryEvent α)} {store : HistoryStore α}
    {world : σ} {x : Execution σ ε α}
    (hx : Executes p.toWorkflow port engine p.toWorkflow.start (.new wid h) store world x) :
    Round p wid h store world x := by
  obtain ⟨y, hy, hround⟩ := round_exists p port he h store world
  exact hx.unique hy ▸ hround

end Exec

/-! ## Scripts -/

/-- A deterministic body that propagates step errors, has finitely many steps on every path, and
whose step functions return a value. -/
inductive Script (σ ε α : Type) where
  | ret (reply : Reply ε α)
  | step (stepId : String) (f : σ → α × σ) (k : α → Script σ ε α)

namespace Script

/-- What a script does next. -/
def next : Script σ ε α → Request σ ε α (Script σ ε α)
  | ret reply => .ret reply
  | step stepId f k => .step stepId (fun world => (.ok (f world).1, (f world).2)) k

/-- A script returns only where a `ret` is left of it. -/
theorem eq_ret_of_next {left : Script σ ε α} {reply : Reply ε α} (h : left.next = .ret reply) :
    left = .ret reply := by
  cases left with
  | ret r => exact congrArg _ (Request.ret.inj h)
  | step stepId f k => cases h

/-- A script as a propagating body: its states are what is left of it. -/
def body (w : Script σ ε α) : Propagating σ ε α (Script σ ε α) := ⟨w, next⟩

/-- The body as the engine runs it. -/
abbrev toWorkflow (w : Script σ ε α) : Workflow σ ε α (Script σ ε α ⊕ WorkflowError ε) :=
  w.body.toWorkflow

/-- What is left of the script after it was fed the events of `h`. -/
abbrev feed (w : Script σ ε α) (h : List (HistoryEvent α)) : Option (Script σ ε α) :=
  w.body.feed w h

/-- Every error that the script itself returns, on any path, satisfies `P`. -/
def OwnErrors (P : WorkflowError ε → Prop) : Script σ ε α → Prop
  | ret (.ok _) => True
  | ret (.error e) => P e
  | step _ _ k => ∀ v, (k v).OwnErrors P

/-- What is left of a script has no other errors. -/
theorem OwnErrors.feed {P : WorkflowError ε → Prop} {w : Script σ ε α} (p : Propagating σ ε α
    (Script σ ε α)) (hp : p.next = Script.next) (hw : w.OwnErrors P) {h : List (HistoryEvent α)}
    {w' : Script σ ε α} (hf : p.feed w h = some w') : w'.OwnErrors P := by
  induction h generalizing w with
  | nil =>
    obtain rfl : w = w' := by simpa [Propagating.feed] using hf
    exact hw
  | cons ev h ih =>
    cases w with
    | ret reply => simp [Propagating.feed, hp, Script.next] at hf
    | step stepId f k =>
      by_cases hid : ev.stepId = stepId
      · exact ih (hw ev.result) (by simpa [Propagating.feed, hp, Script.next, hid] using hf)
      · simp [Propagating.feed, hp, Script.next, hid] at hf

end Script

end DurableExecution
