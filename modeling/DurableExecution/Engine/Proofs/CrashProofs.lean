import DurableExecution.Library.Steps
import DurableExecution.Engine.Crash
import DurableExecution.Engine.Proofs.CompletionProofs

/-!
# Proofs: crash anywhere

Every history that an attempt leaves behind is a prefix of a straight-through execution of the
script, and the step functions were invoked once for each of its events and once for each attempt
that was cut inside a step. The small steps keep this (`Following`), so every number of attempts
keeps it, and the attempt that is not cut completes the execution (`completes`).
-/

namespace DurableExecution

/-! ## The log of the step functions -/

section Log

variable {σ ε α S : Type}

/-- The position of the step function that runs. -/
def Phase.running : Phase σ ε α S → List ℕ
  | .closure ctx _ _ _ => [ctx.cursor]
  | _ => []

/-- What the next small step does to the world: the step function that runs is applied to it. -/
def Phase.effect : Phase σ ε α S → σ → σ
  | .closure _ _ f _ => fun world => (f world).2
  | _ => id

/-- A small step applies the step function that runs, if one does, and logs the one that it calls. -/
theorem Machine.micro_log (w : Workflow σ ε α S) (wid : String) (m : Machine σ ε α S) :
    (m.micro w wid).world = m.phase.effect m.world ∧
      (m.micro w wid).invoked = m.invoked ++ (m.micro w wid).phase.running := by
  cases hp : m.phase with
  | body ctx s =>
    cases hs : w.next s with
    | ret reply =>
      by_cases hr : reply = .error .replay
      · simp [micro, hp, hs, hr, Phase.running, Phase.effect]
      · have hmicro : m.micro w wid = { m with phase := .returned reply } := by
          simp only [micro, hp, hs]
        simp [hmicro, Phase.running, Phase.effect]
    | step stepId f k =>
      cases hserve : (ctx.serve stepId : Option (Reply ε α × WorkflowContext α)) with
      | some p => simp [micro, hp, hs, hserve, Phase.running, Phase.effect]
      | none => simp [micro, hp, hs, hserve, Phase.running, Phase.effect]
  | closure ctx stepId f k =>
    obtain ⟨reply, world, hf⟩ : ∃ reply world, f m.world = (reply, world) := ⟨_, _, rfl⟩
    cases reply with
    | ok result => simp [micro, hp, hf, Phase.running, Phase.effect]
    | error e => simp [micro, hp, hf, Phase.running, Phase.effect]
  | save ctx stepId result k => simp [micro, hp, Phase.running, Phase.effect]
  | returned reply => simp [micro, hp, Phase.running, Phase.effect]

/-- **The log is right**: after any number of small steps, each position in it stands for one
application of the step function called there, the last one perhaps still to come, and nothing else
has changed the world. -/
theorem Machine.iterate_log (w : Workflow σ ε α S) (wid : String) (engine : Engine)
    (store : HistoryStore α) (world : σ) (n : ℕ) :
    let state := fun i => (micro w wid)^[i] (.start w wid engine store world)
    (state n).world = (List.range n).foldl (fun u i => (state i).phase.effect u) world ∧
      (state n).invoked = ((List.range n).flatMap fun i => (state i).phase.running) ++
        (state n).phase.running := by
  intro state
  induction n with
  | zero => exact ⟨rfl, rfl⟩
  | succ n ih =>
    obtain ⟨hworld, hinvoked⟩ := ih
    have hnext : state (n + 1) = (state n).micro w wid := Function.iterate_succ_apply' _ _ _
    obtain ⟨hworld', hinvoked'⟩ := (state n).micro_log w wid
    rw [List.range_succ, List.foldl_append, List.flatMap_append]
    constructor
    · rw [hnext, hworld', hworld]
      rfl
    · rw [hnext, hinvoked', hinvoked]
      simp

end Log

variable {σ ε α : Type} {w : Script σ ε α} {wid : String}

/-! ## What an attempt keeps -/

/-- What a script does when it calls a step, as the engine sees it. -/
theorem Script.of_next_step {s : Script σ ε α} {stepId : String} {f : StepFn σ ε α}
    {k : Reply ε α → Script σ ε α ⊕ WorkflowError ε}
    (hs : w.toWorkflow.next (.inl s) = .step stepId f k) :
    ∃ g j, s = .step stepId g j ∧ (f = fun world => (.ok (g world).1, (g world).2)) ∧
      (∀ v, k (.ok v) = .inl (j v)) ∧ ∀ e, k (.error e) = .inr e := by
  cases s with
  | ret reply => cases hs
  | step id g j =>
    cases hs
    exact ⟨g, j, rfl, rfl, fun _ => rfl, fun _ => rfl⟩

/-- Where an attempt on a script can be when `h` is stored: the body has followed the history up to
the cursor, and a step that runs is the next one. -/
def Follows (w : Script σ ε α) (wid : String) (h : List (HistoryEvent α)) :
    Phase σ ε α (Script σ ε α ⊕ WorkflowError ε) → Prop
  | .body ctx (.inl s) =>
    ∃ i, i ≤ h.length ∧ ctx = ⟨wid, h, i⟩ ∧ w.feed (h.take i) = some s
  | .body _ (.inr e) => e = .replay
  | .closure ctx stepId f k => ctx = ⟨wid, h, h.length⟩ ∧
    ∃ left, w.feed h = some left ∧ w.toWorkflow.next (.inl left) = .step stepId f k
  | .save ctx stepId result k => ctx = ⟨wid, h, h.length⟩ ∧
    ∃ left f, w.feed h = some left ∧ w.toWorkflow.next (.inl left) = .step stepId f k ∧
      ∃ world, (f world).1 = .ok result
  | .returned _ => True

/-- What an attempt keeps, step by step. The attempt started from `store`, and `d` is what the
attempts before it left behind. -/
structure Following (w : Script σ ε α) (wid : String) (store : HistoryStore α) (invoked cuts : List ℕ)
    (m : Machine σ ε α (Script σ ε α ⊕ WorkflowError ε)) : Prop where
  trace : ∃ left, w.Trace 0 (m.store.load wid) left
  phase : Follows w wid (m.store.load wid) m.phase
  count : (invoked ++ m.invoked).Perm
    (List.range (m.store.load wid).length ++ cuts ++ m.phase.pending)
  other : ∀ wid', wid' ≠ wid → m.store.load wid' = store.load wid'

variable {store : HistoryStore α} {invoked cuts : List ℕ}
  {m : Machine σ ε α (Script σ ε α ⊕ WorkflowError ε)}

/-- Body code that returns: the run ends, or the body is entered again. -/
theorem Following.micro_ret (hm : Following w wid store invoked cuts m) {ctx : WorkflowContext α}
    {s : Script σ ε α ⊕ WorkflowError ε} (hp : m.phase = .body ctx s) {reply : Reply ε α}
    (hs : w.toWorkflow.next s = .ret reply) :
    Following w wid store invoked cuts (m.micro w.toWorkflow wid) := by
  have hcount := hm.count
  rw [hp] at hcount
  by_cases hr : reply = .error .replay
  · subst hr
    have hmicro : m.micro w.toWorkflow wid = { m with
        engine := { m.engine with replays := m.engine.replays + 1 }
        phase := .body (.new wid (m.store.load wid)) (.inl w) } := by
      simp only [Machine.micro, hp, hs]
      rfl
    rw [hmicro]
    exact ⟨hm.trace, ⟨0, Nat.zero_le _, rfl, rfl⟩, hcount, hm.other⟩
  · have hmicro : m.micro w.toWorkflow wid = { m with phase := .returned reply } := by
      simp only [Machine.micro, hp, hs]
    rw [hmicro]
    exact ⟨hm.trace, trivial, hcount, hm.other⟩

/-- Body code that calls `step`: the recorded event is served, or the step function is called. -/
theorem Following.micro_step (hm : Following w wid store invoked cuts m) {ctx : WorkflowContext α}
    {s : Script σ ε α} (hp : m.phase = .body ctx (.inl s)) {stepId : String} {f : StepFn σ ε α}
    {k : Reply ε α → Script σ ε α ⊕ WorkflowError ε}
    (hs : w.toWorkflow.next (.inl s) = .step stepId f k) :
    Following w wid store invoked cuts (m.micro w.toWorkflow wid) := by
  obtain ⟨left, htrace⟩ := hm.trace
  have hphase := hm.phase
  have hcount := hm.count
  rw [hp] at hphase hcount
  obtain ⟨i, hi, rfl, hf⟩ := hphase
  obtain ⟨g, j, rfl, -, hk, -⟩ := Script.of_next_step hs
  set h := m.store.load wid with hh
  rcases hi.lt_or_eq with hlt | rfl
  · -- the body asks for the recorded id, since it is the body that wrote the history
    obtain ⟨t, g', j', ht, hn⟩ := Propagating.feed_prefix (htrace.feed w) hlt
    obtain rfl : t = .step stepId g j := Option.some.inj (ht.symm.trans hf)
    have hid : h[i].stepId = stepId := by cases hn; rfl
    have hev : (⟨wid, h, i⟩ : WorkflowContext α).history[i]? = some h[i] :=
      List.getElem?_eq_getElem hlt
    have hserve : _ = some ((.ok h[i].result : Reply ε α), _) := WorkflowContext.serve_match hev
    rw [hid] at hserve
    have hmicro : m.micro w.toWorkflow wid = { m with
        phase := .body ⟨wid, h, i + 1⟩ (.inl (j h[i].result)) } := by
      simp only [Machine.micro, hp, hs, hserve, hk]
    have hfeed : w.feed (h.take (i + 1)) = some (j h[i].result) := by
      have hone := Propagating.feed_snoc hf rfl h[i].seq h[i].result
      rw [← hid] at hone
      rw [List.take_add_one, List.getElem?_eq_getElem hlt]
      exact hone
    rw [hmicro]
    exact ⟨hm.trace, ⟨i + 1, hlt, rfl, hfeed⟩, hcount, hm.other⟩
  · -- the history is at its end
    have hserve : ((⟨wid, h, h.length⟩ : WorkflowContext α).serve stepId :
        Option (Reply ε α × WorkflowContext α)) = none := WorkflowContext.serve_eq_none_iff.mpr le_rfl
    have hmicro : m.micro w.toWorkflow wid = { m with
        phase := .closure ⟨wid, h, h.length⟩ stepId f k, invoked := m.invoked ++ [h.length] } := by
      simp only [Machine.micro, hp, hs, hserve]
    rw [List.take_length] at hf
    rw [hmicro]
    refine ⟨hm.trace, ⟨rfl, _, hf, hs⟩, ?_, hm.other⟩
    have hcount' := hcount.append_right [h.length]
    simpa [Phase.pending] using hcount'

theorem Following.micro_closure (hm : Following w wid store invoked cuts m) {ctx : WorkflowContext α}
    {stepId : String} {f : StepFn σ ε α} {k : Reply ε α → Script σ ε α ⊕ WorkflowError ε}
    (hp : m.phase = .closure ctx stepId f k) :
    Following w wid store invoked cuts (m.micro w.toWorkflow wid) := by
  have hphase := hm.phase
  have hcount := hm.count
  rw [hp] at hphase hcount
  obtain ⟨rfl, left, hf, hs⟩ := hphase
  obtain ⟨g, j, rfl, rfl, -, -⟩ := Script.of_next_step hs
  have hmicro : m.micro w.toWorkflow wid = { m with
      world := (g m.world).2
      phase := .save ⟨wid, m.store.load wid, (m.store.load wid).length⟩ stepId (g m.world).1 k } := by
    simp only [Machine.micro, hp]
  rw [hmicro]
  exact ⟨hm.trace, ⟨rfl, _, _, hf, hs, m.world, rfl⟩, hcount, hm.other⟩

theorem Following.micro_save (hm : Following w wid store invoked cuts m) {ctx : WorkflowContext α}
    {stepId : String} {result : α} {k : Reply ε α → Script σ ε α ⊕ WorkflowError ε}
    (hp : m.phase = .save ctx stepId result k) :
    Following w wid store invoked cuts (m.micro w.toWorkflow wid) := by
  obtain ⟨left, htrace⟩ := hm.trace
  have hphase := hm.phase
  have hcount := hm.count
  rw [hp] at hphase hcount
  obtain ⟨rfl, left', f, hf, hs, world, hv⟩ := hphase
  obtain ⟨g, j, rfl, rfl, -, hk⟩ := Script.of_next_step hs
  obtain rfl : (g world).1 = result := Except.ok.inj hv
  obtain rfl : left = .step stepId g j := Option.some.inj ((htrace.feed w).symm.trans hf)
  set h := m.store.load wid with hh
  have hmicro : m.micro w.toWorkflow wid = { m with
      store := m.store.save wid (h ++ [⟨h.length, stepId, (g world).1⟩])
      phase := .body ⟨wid, h ++ [⟨h.length, stepId, (g world).1⟩], h.length⟩ (.inr .replay) } := by
    simp only [Machine.micro, hp, hk]
    rfl
  have hload : (m.store.save wid (h ++ [⟨h.length, stepId, (g world).1⟩])).load wid =
      h ++ [⟨h.length, stepId, (g world).1⟩] := HistoryStore.load_save _ _ _
  have htrace' := htrace.snoc world
  rw [Nat.zero_add] at htrace'
  rw [hmicro]
  refine ⟨⟨_, hload ▸ htrace'⟩, rfl, ?_, ?_⟩
  · -- the pending position becomes a recorded one
    have hperm : (List.range h.length ++ cuts ++ [h.length]).Perm
        (List.range (h.length + 1) ++ cuts) := by
      rw [List.range_succ, List.append_assoc, List.append_assoc]
      exact List.perm_append_comm.append_left _
    rw [hload, List.length_append, List.length_singleton]
    simpa [Phase.pending] using hcount.trans hperm
  · intro wid' hne
    rw [HistoryStore.load_save_of_ne _ hne, hm.other wid' hne]

theorem Following.micro (hm : Following w wid store invoked cuts m) :
    Following w wid store invoked cuts (m.micro w.toWorkflow wid) := by
  cases hp : m.phase with
  | body ctx s =>
    cases hs : w.toWorkflow.next s with
    | ret reply => exact hm.micro_ret hp hs
    | step stepId f k =>
      cases s with
      | inl s => exact hm.micro_step hp hs
      | inr e => cases hs
  | closure ctx stepId f k => exact hm.micro_closure hp
  | save ctx stepId result k => exact hm.micro_save hp
  | returned reply =>
    have hmicro : m.micro w.toWorkflow wid = m := by simp only [Machine.micro, hp]
    rwa [hmicro]

theorem Following.iterate (hm : Following w wid store invoked cuts m) (n : ℕ) :
    Following w wid store invoked cuts ((Machine.micro w.toWorkflow wid)^[n] m) := by
  apply Function.Iterate.rec (Following w wid store invoked cuts) hm
  intro m' h
  exact h.micro

/-- What any number of attempts that are cut short leave behind: a prefix of a straight-through
execution, with one invocation for each event and one for each cut inside a step. -/
structure Left (w : Script σ ε α) (wid : String) (store : HistoryStore α) (d : Durable σ α) :
    Prop where
  trace : ∃ left, w.Trace 0 (d.store.load wid) left
  count : d.invoked.Perm (List.range (d.store.load wid).length ++ d.cuts)
  other : ∀ wid', wid' ≠ wid → d.store.load wid' = store.load wid'

theorem Left.attempt {d : Durable σ α} (hd : Left w wid store d) (a : Attempt σ) :
    Left w wid store (d.attempt w.toWorkflow wid a) := by
  have hstart : Following w wid store d.invoked d.cuts
      (.start w.toWorkflow wid a.engine d.store d.world) := by
    refine ⟨hd.trace, ⟨0, Nat.zero_le _, rfl, rfl⟩, ?_, hd.other⟩
    simpa [Machine.start, Phase.pending] using hd.count
  have hcut := hstart.iterate a.cut
  refine ⟨hcut.trace, ?_, hcut.other⟩
  have hcount := hcut.count
  rwa [List.append_assoc] at hcount

theorem Left.foldl {d : Durable σ α} (hd : Left w wid store d) (attempts : List (Attempt σ)) :
    Left w wid store (attempts.foldl (Durable.attempt w.toWorkflow wid) d) := by
  induction attempts generalizing d with
  | nil => exact hd
  | cons a as ih => exact ih (hd.attempt a)

theorem left_crashed (hempty : store.load wid = []) (world : σ) (attempts : List (Attempt σ)) :
    Left w wid store (crashed w.toWorkflow wid store world attempts) := by
  have hnone : Left w wid store (⟨store, world, [], []⟩ : Durable σ α) := by
    refine ⟨⟨w, ?_⟩, ?_, fun _ _ => rfl⟩
    · rw [hempty]
      exact .nil w 0
    · rw [hempty]
      exact List.Perm.refl _
  exact hnone.foldl attempts

/-- A completed run after any such attempts: every step function was invoked once for each event of
the history, and once for each cut inside a step. -/
theorem Left.completed {d : Durable σ α} (hd : Left w wid store d) {left : Script σ ε α}
    {engine : Engine} {o : Outcome σ ε α} {new : List (HistoryEvent α)}
    (hc : Completed left wid engine d.store o new) :
    (d.invoked ++ o.invoked).Perm (List.range (o.store.load wid).length ++ d.cuts) := by
  have hinv : o.invoked = List.range' (d.store.load wid).length new.length := by
    rw [Outcome.invoked, hc.executions, invoked_recordingRounds]
  have hrange : List.range (o.store.load wid).length =
      List.range (d.store.load wid).length ++ o.invoked := by
    have happend := List.range'_append_1 (s := 0) (m := (d.store.load wid).length) (n := new.length)
    rw [Nat.zero_add] at happend
    rw [hc.load, hinv, List.length_append, List.range_eq_range', List.range_eq_range', happend]
  have hcomm : (d.cuts ++ o.invoked).Perm (o.invoked ++ d.cuts) := List.perm_append_comm
  have hmove := hcomm.append_left (List.range (d.store.load wid).length)
  rw [hrange, List.append_assoc]
  have hcount := hd.count.append_right o.invoked
  rw [List.append_assoc] at hcount
  exact hcount.trans hmove

/-- **Crash anywhere.** -/
theorem crash_anywhere (w : Script σ ε α) (hown : w.OwnErrors (· ≠ .replay)) (wid : String)
    (store : HistoryStore α) (hempty : store.load wid = []) (world : σ) (attempts : List (Attempt σ))
    (engine : Engine) :
    ∃ o, Runs w.toWorkflow .rust wid engine
        (crashed w.toWorkflow wid store world attempts).store
        (crashed w.toWorkflow wid store world attempts).world o ∧
      w.StraightThrough (o.store.load wid) o.reply ∧
      (∀ i, i < (o.store.load wid).length →
        ((crashed w.toWorkflow wid store world attempts).invoked ++ o.invoked).count i =
          1 + (crashed w.toWorkflow wid store world attempts).cuts.count i) ∧
      ∀ wid', wid' ≠ wid → o.store.load wid' = store.load wid' := by
  have hd := left_crashed (w := w) hempty world attempts
  set d := crashed w.toWorkflow wid store world attempts
  obtain ⟨left, htrace⟩ := hd.trace
  have he : ({ engine with wid } : Engine).wid = wid := rfl
  obtain ⟨o, new, ho, hc⟩ := completes left (htrace.ownErrors hown) he d.store d.world (htrace.feed w)
  refine ⟨o, ho, ?_, ?_, ?_⟩
  · rw [hc.load]
    exact htrace.append (by simpa using hc.trace)
  · intro i hi
    rw [(hd.completed hc).count_eq, List.count_append, List.count_range, if_pos hi]
  · intro wid' hne
    rw [hc.other wid' hne, hd.other wid' hne]

/-- An order whose charge is repeated after a cut before its save, and not after a cut behind it. -/
theorem crash_anywhere_order :
    ∃ o, Runs (.step "charge" (fun n => (n, n + 1)) fun a =>
          .step "ship" (fun n => (n, n + 1)) fun b =>
          .ret (.ok (a + b)) : Script ℕ Empty ℕ).toWorkflow .rust "order-1" ⟨"", 0⟩
        (crashed (.step "charge" (fun n => (n, n + 1)) fun a =>
          .step "ship" (fun n => (n, n + 1)) fun b =>
          .ret (.ok (a + b)) : Script ℕ Empty ℕ).toWorkflow "order-1" .new 10
          [⟨⟨"", 0⟩, 2, id⟩, ⟨⟨"", 0⟩, 3, id⟩]).store
        (crashed (.step "charge" (fun n => (n, n + 1)) fun a =>
          .step "ship" (fun n => (n, n + 1)) fun b =>
          .ret (.ok (a + b)) : Script ℕ Empty ℕ).toWorkflow "order-1" .new 10
          [⟨⟨"", 0⟩, 2, id⟩, ⟨⟨"", 0⟩, 3, id⟩]).world o ∧ o.reply = .ok 23 := by
  set w : Script ℕ Empty ℕ := .step "charge" (fun n => (n, n + 1)) fun a =>
    .step "ship" (fun n => (n, n + 1)) fun b => .ret (.ok (a + b))
  obtain ⟨o, ho, -⟩ := crash_anywhere w (fun _ _ => trivial) "order-1" .new rfl 10
    [⟨⟨"", 0⟩, 2, id⟩, ⟨⟨"", 0⟩, 3, id⟩] ⟨"", 0⟩
  have hrun : ∃ p, Runs w.toWorkflow .rust "order-1" ⟨"", 0⟩
      (crashed w.toWorkflow "order-1" .new 10 [⟨⟨"", 0⟩, 2, id⟩, ⟨⟨"", 0⟩, 3, id⟩]).store
      (crashed w.toWorkflow "order-1" .new 10 [⟨⟨"", 0⟩, 2, id⟩, ⟨⟨"", 0⟩, 3, id⟩]).world p ∧
      p.reply = .ok 23 := ⟨_, ⟨5, rfl⟩, rfl⟩
  obtain ⟨p, hp, hv⟩ := hrun
  exact ⟨o, ho, ho.unique hp ▸ hv⟩

/-- A body that returns `replay` itself is run again for ever. -/
theorem replay_never_returns :
    ¬ ∃ o, Runs (.ret (.error .replay) : Script Unit Empty ℕ).toWorkflow .rust "wf" ⟨"", 0⟩ .new ()
      o := by
  rintro ⟨o, ho⟩
  have hloop := runs_iff.mp ho
  clear ho
  generalize ({ wid := "wf", replays := 0 } : Engine) = engine at hloop
  generalize (HistoryStore.new : HistoryStore ℕ) = store at hloop
  generalize () = world at hloop
  induction hloop using Loops.induct with
  | stop x hx hr =>
    have hret := hx.unique (executes_inl_ret rfl)
    rw [hret] at hr
    exact hr rfl
  | again x hx hr hloop ih => exact ih

/-! ## The small steps are those of the engine -/

section Engine

open Steps

variable {S : Type} {v : Workflow σ ε α S}

variable (wid) in
/-- The small steps of one call of `step`. -/
theorem micro_of_step {s : S} {ctx : WorkflowContext α} {world : σ} {stepId : String}
    {f : StepFn σ ε α} {k : Reply ε α → S} {r : Stepped σ ε α} (hs : v.next s = .step stepId f k)
    (hr : ctx.step .rust engine stepId f store world = r) (invoked : List ℕ) :
    Leads (Machine.micro v wid) ⟨engine, store, world, .body ctx s, invoked⟩
      ⟨engine, r.store, r.world, .body r.context (k r.reply),
        invoked ++ if r.invoked then [ctx.cursor] else []⟩ := by
  subst hr
  cases hserve : (ctx.serve stepId : Option (Reply ε α × WorkflowContext α)) with
  | some p => exact ⟨1, by simp [Machine.micro, WorkflowContext.step, hs, hserve]⟩
  | none =>
    obtain ⟨reply, world', hf⟩ : ∃ reply world', f world = (reply, world') := ⟨_, _, rfl⟩
    cases reply with
    | error e => exact ⟨2, by simp [Machine.micro, WorkflowContext.step, hs, hserve, hf]⟩
    | ok result => exact ⟨3, by simp [Machine.micro, WorkflowContext.step, hs, hserve, hf]⟩

variable (wid) in
/-- The small steps of one execution: they end where the body returns. -/
theorem micro_of_executes {s : S} {ctx : WorkflowContext α} {world : σ} {x : Execution σ ε α}
    (h : Executes v .rust engine s ctx store world x) (invoked : List ℕ) :
    ∃ s', Leads (Machine.micro v wid) ⟨engine, store, world, .body ctx s, invoked⟩
        ⟨engine, x.store, x.world, .body x.context s', invoked ++ invokedPositions x.calls⟩ ∧
      v.next s' = .ret x.reply := by
  induction h using Executes.induct generalizing invoked with
  | @ret s ctx store world reply hs hx =>
    exact ⟨s, by simpa [invokedPositions] using Leads.refl _, hs⟩
  | @step s ctx store world stepId f k r y hs hr hy hx ih =>
    have hstep := micro_of_step wid hs hr invoked
    obtain ⟨s', hrest, hs'⟩ := ih (invoked ++ if r.invoked then [ctx.cursor] else [])
    refine ⟨s', hstep.trans ?_, hs'⟩
    cases hinv : r.invoked <;> simpa [hinv, invokedPositions] using hrest

/-- The small steps of the loop. -/
theorem micro_of_loops {world : σ} {o : Outcome σ ε α}
    (h : Loops v .rust wid engine store world o) : ∀ invoked : List ℕ,
    Leads (Machine.micro v wid)
      ⟨engine, store, world, .body (.new wid (store.load wid)) v.start, invoked⟩
      ⟨o.engine, o.store, o.world, .returned o.reply, invoked ++ o.invoked⟩ := by
  induction h using Loops.induct with
  | @stop engine store world x hx hr =>
    intro invoked
    obtain ⟨s, hleads, hs⟩ := micro_of_executes wid hx invoked
    apply hleads.tail
    rcases hreply : x.reply with (_ | message | failure) | u
    · exact absurd hreply hr
    · simp [Machine.micro, Outcome.invoked, hs, hreply]
    · simp [Machine.micro, Outcome.invoked, hs, hreply]
    · simp [Machine.micro, Outcome.invoked, hs, hreply]
  | @again engine store world x o hx hr ho ih =>
    intro invoked
    obtain ⟨s, hleads, hs⟩ := micro_of_executes wid hx invoked
    have hrest := ih (invoked ++ invokedPositions x.calls)
    have hagain : Machine.micro v wid ⟨engine, x.store, x.world, .body x.context s,
        invoked ++ invokedPositions x.calls⟩ = ⟨{ engine with replays := engine.replays + 1 },
          x.store, x.world, .body (.new wid (x.store.load wid)) v.start,
          invoked ++ invokedPositions x.calls⟩ := by
      simp [Machine.micro, hs, hr]
    have hall := (hleads.tail hagain).trans hrest
    simpa [Outcome.invoked] using hall

/-- **A run that is not cut** takes its small steps to the end, and leaves behind what `run`
does. -/
theorem micro_of_runs {engine : Engine} {world : σ} {o : Outcome σ ε α}
    (h : Runs v .rust wid engine store world o) :
    Leads (Machine.micro v wid) (.start v wid engine store world)
      ⟨o.engine, o.store, o.world, .returned o.reply, o.invoked⟩ := by
  have hleads := micro_of_loops (runs_iff.mp h) []
  rwa [List.nil_append] at hleads

end Engine

end DurableExecution
