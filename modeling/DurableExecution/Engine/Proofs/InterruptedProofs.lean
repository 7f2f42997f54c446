import DurableExecution.Engine.Interrupted
import DurableExecution.Engine.Proofs.HandlingProofs

/-!
# Proofs: bodies that handle failures, and crashes

Wherever a run is cut, the store stands at an answered state. The exceptions that the body handles on
the way to the next step that returns leave nothing behind, so the small steps are guided by the state
at the end of the history alone.
-/

namespace DurableExecution

namespace Handling

variable {σ ε α S : Type} {b : Handling σ ε α S} {wid : String}

/-- The first step that returns after the exceptions is the first one that returns. -/
theorem Raises.firstReturn {s s' : S} (h : b.Raises s s') {stepId : String} {v : α}
    (hfirst : b.FirstReturn s' stepId v) : b.FirstReturn s stepId v := by
  induction h with
  | refl => exact hfirst
  | raised h hs ih => exact ih (.raised hs hfirst)

/-- What a body does when it calls a step, as the engine sees it. -/
theorem of_next_step {s : S} {stepId : String} {f : StepFn σ ε α}
    {k : Reply ε α → S ⊕ WorkflowError ε} (hs : b.toWorkflow.next (.inl s) = .step stepId f k) :
    ∃ outcome effect j, b.next s = .step stepId outcome effect j ∧ f = behaves outcome effect ∧
      k = handle j := by
  cases hn : b.next s with
  | ret reply =>
    rw [next_ret hn] at hs
    cases hs
  | step stepId' outcome effect j =>
    rw [next_step hn] at hs
    obtain ⟨rfl, rfl, rfl⟩ := Action.step.inj hs
    exact ⟨outcome, effect, j, rfl, rfl, rfl⟩

/-- Where a run can be when `h` is stored, and the body comes to `s` at its end. -/
def Guides (b : Handling σ ε α S) (wid : String) (h : List (HistoryEvent α)) (s : S) :
    Phase σ ε α (S ⊕ WorkflowError ε) → Prop
  | .body ctx (.inl t) =>
    (∃ i, i < h.length ∧ ctx = ⟨wid, h, i⟩ ∧ b.answered.feed b.start (h.take i) = some t) ∨
      (ctx = ⟨wid, h, h.length⟩ ∧ b.Raises s t)
  | .body ctx (.inr _) => ctx.wid = wid
  | .closure ctx stepId f k => ctx = ⟨wid, h, h.length⟩ ∧
    ∃ t, b.Raises s t ∧ b.toWorkflow.next (.inl t) = .step stepId f k
  | .save ctx stepId result k => ctx = ⟨wid, h, h.length⟩ ∧ b.FirstReturn s stepId result ∧
    ∃ j, k = handle j
  | .returned _ => True

/-- What the small steps of a run keep. -/
structure Guided (b : Handling σ ε α S) (wid : String) (m : Machine σ ε α (S ⊕ WorkflowError ε)) :
    Prop where
  own : m.engine.wid = wid
  answered : ∃ s, b.At wid m.store s ∧ b.Resumed s ∧ b.Guides wid (m.store.load wid) s m.phase

variable {m : Machine σ ε α (S ⊕ WorkflowError ε)}

/-- The engine that keeps the running id itself saves under the id of the context. -/
theorem Guided.target (hm : b.Guided wid m) {ctx : WorkflowContext α} {stepId : String} {result : α}
    {k : Reply ε α → S ⊕ WorkflowError ε} (hp : m.phase = .save ctx stepId result k) :
    m.engine.target .python ctx = m.engine.target .rust ctx := by
  obtain ⟨s, -, -, hguides⟩ := hm.answered
  rw [hp] at hguides
  obtain ⟨rfl, -⟩ := hguides
  exact hm.own

/-- An execution starts at the beginning of the history. -/
theorem guides_start {store : HistoryStore α} {s : S} (hat : b.At wid store s) :
    b.Guides wid (store.load wid) s
      (.body (.new wid (store.load wid)) (.inl b.start) : Phase σ ε α (S ⊕ WorkflowError ε)) := by
  cases hload : store.load wid with
  | nil =>
    unfold At at hat
    rw [hload] at hat
    obtain rfl := Option.some.inj hat
    exact Or.inr ⟨rfl, .refl⟩
  | cons ev h => exact Or.inl ⟨0, Nat.zero_lt_succ _, rfl, rfl⟩

theorem guided_start {store : HistoryStore α} {s : S} (hat : b.At wid store s) (hs : b.Resumed s)
    (engine : Engine) (world : σ) : b.Guided wid (.start b.toWorkflow wid engine store world) :=
  ⟨rfl, s, hat, hs, guides_start hat⟩

theorem Guided.micro_ret (hm : b.Guided wid m) {ctx : WorkflowContext α} {st : S ⊕ WorkflowError ε}
    (hp : m.phase = .body ctx st) {reply : Reply ε α} (hn : b.toWorkflow.next st = .ret reply) :
    b.Guided wid (m.micro b.toWorkflow wid) := by
  obtain ⟨s, hat, hs, -⟩ := hm.answered
  by_cases hr : reply = .error .replay
  · subst hr
    have hmicro : m.micro b.toWorkflow wid = { m with
        engine := { m.engine with replays := m.engine.replays + 1 }
        phase := .body (.new wid (m.store.load wid)) (.inl b.start) } := by
      simp only [Machine.micro, hp, hn]
      rfl
    rw [hmicro]
    exact ⟨hm.own, s, hat, hs, guides_start hat⟩
  · have hmicro : m.micro b.toWorkflow wid = { m with phase := .returned reply } := by
      simp only [Machine.micro, hp, hn]
    rw [hmicro]
    exact ⟨hm.own, s, hat, hs, trivial⟩

/-- Body code that calls `step` within the history gets the recorded value, and at the end of the
history the step function is called. -/
theorem Guided.micro_step (hm : b.Guided wid m) {ctx : WorkflowContext α} {t : S}
    (hp : m.phase = .body ctx (.inl t)) {stepId : String} {f : StepFn σ ε α}
    {k : Reply ε α → S ⊕ WorkflowError ε} (hn : b.toWorkflow.next (.inl t) = .step stepId f k) :
    b.Guided wid (m.micro b.toWorkflow wid) := by
  obtain ⟨s, hat, hs, hguides⟩ := hm.answered
  obtain ⟨outcome, effect, j, ht, -, rfl⟩ := of_next_step hn
  rw [hp] at hguides
  set h := m.store.load wid with hh
  rcases hguides with ⟨i, hlt, rfl, hfeed⟩ | ⟨rfl, hraises⟩
  · -- the body asks for the recorded id, since the whole history can be fed to it
    obtain ⟨t', g, j', ht', hn'⟩ := Propagating.feed_prefix hat hlt
    obtain rfl : t' = t := Option.some.inj (ht'.symm.trans hfeed)
    have hanswered := answered_step ht
    have hid : h[i].stepId = stepId := (Request.step.inj (hn'.symm.trans hanswered)).1
    have hev : (⟨wid, h, i⟩ : WorkflowContext α).history[i]? = some h[i] :=
      List.getElem?_eq_getElem hlt
    have hserve : _ = some ((.ok h[i].result : Reply ε α), _) := WorkflowContext.serve_match hev
    rw [hid] at hserve
    have hmicro : m.micro b.toWorkflow wid = { m with
        phase := .body ⟨wid, h, i + 1⟩ (.inl (j (.ok h[i].result))) } := by
      simp only [Machine.micro, hp, hn, hserve]
      rfl
    have hnext : b.answered.feed b.start (h.take (i + 1)) = some (j (.ok h[i].result)) := by
      have hone := Propagating.feed_snoc hfeed hanswered h[i].seq h[i].result
      rw [← hid] at hone
      rw [List.take_add_one, List.getElem?_eq_getElem hlt]
      exact hone
    rw [hmicro]
    refine ⟨hm.own, s, hat, hs, ?_⟩
    rcases Nat.lt_or_ge (i + 1) h.length with hlt' | hge
    · exact Or.inl ⟨i + 1, hlt', rfl, hnext⟩
    · obtain heq : i + 1 = h.length := by omega
      rw [heq, List.take_length] at hnext
      obtain rfl : s = j (.ok h[i].result) := Option.some.inj (hat.symm.trans hnext)
      exact Or.inr ⟨by rw [heq], .refl⟩
  · have hserve : ((⟨wid, h, h.length⟩ : WorkflowContext α).serve stepId :
        Option (Reply ε α × WorkflowContext α)) = none := WorkflowContext.serve_eq_none_iff.mpr le_rfl
    have hmicro : m.micro b.toWorkflow wid = { m with
        phase := .closure ⟨wid, h, h.length⟩ stepId f (handle j)
        invoked := m.invoked ++ [h.length] } := by
      simp only [Machine.micro, hp, hn, hserve]
    rw [hmicro]
    exact ⟨hm.own, s, hat, hs, rfl, t, hraises, hn⟩

/-- A step function that raises hands its exception to the body. -/
theorem Guided.micro_closure (hm : b.Guided wid m) {ctx : WorkflowContext α} {stepId : String}
    {f : StepFn σ ε α} {k : Reply ε α → S ⊕ WorkflowError ε} (hp : m.phase = .closure ctx stepId f k) :
    b.Guided wid (m.micro b.toWorkflow wid) := by
  obtain ⟨s, hat, hs, hguides⟩ := hm.answered
  rw [hp] at hguides
  obtain ⟨rfl, t, hraises, hn⟩ := hguides
  obtain ⟨outcome, effect, j, ht, rfl, rfl⟩ := of_next_step hn
  cases outcome with
  | error e =>
    have hmicro : m.micro b.toWorkflow wid = { m with
        world := effect m.world
        phase := .body ⟨wid, m.store.load wid, (m.store.load wid).length⟩ (.inl (j (.error e))) } := by
      simp only [Machine.micro, hp, behaves]
      rfl
    rw [hmicro]
    exact ⟨hm.own, s, hat, hs, Or.inr ⟨rfl, hraises.raised ht⟩⟩
  | ok v =>
    have hmicro : m.micro b.toWorkflow wid = { m with
        world := effect m.world
        phase := .save ⟨wid, m.store.load wid, (m.store.load wid).length⟩ stepId v (handle j) } := by
      simp only [Machine.micro, hp, behaves]
    rw [hmicro]
    exact ⟨hm.own, s, hat, hs, rfl, hraises.firstReturn (.here ht), j, rfl⟩

/-- The value that is saved answers the call that is made at the end of the history, when the ids
agree there. -/
theorem Guided.micro_save (hagree : ∀ s, b.Resumed s → b.IdsAgree s) (hm : b.Guided wid m)
    {ctx : WorkflowContext α} {stepId : String} {result : α} {k : Reply ε α → S ⊕ WorkflowError ε}
    (hp : m.phase = .save ctx stepId result k) : b.Guided wid (m.micro b.toWorkflow wid) := by
  obtain ⟨s, hat, hs, hguides⟩ := hm.answered
  rw [hp] at hguides
  obtain ⟨rfl, hfirst, j, rfl⟩ := hguides
  obtain ⟨stepId', outcome, effect, j', hn⟩ := hfirst.next_step
  obtain rfl : stepId' = stepId := hagree s hs _ _ _ _ _ _ hfirst hn
  set h := m.store.load wid with hh
  have hmicro : m.micro b.toWorkflow wid = { m with
      store := m.store.save wid (h ++ [⟨h.length, stepId', result⟩])
      phase := .body ⟨wid, h ++ [⟨h.length, stepId', result⟩], h.length⟩ (.inr .replay) } := by
    simp only [Machine.micro, hp]
    rfl
  rw [hmicro]
  exact ⟨hm.own, j' (.ok result), hat.save hn h.length result,
    hs.tail ⟨_, _, _, _, _, hn, hfirst, rfl⟩, rfl⟩

/-- **One small step.** -/
theorem Guided.micro (hagree : ∀ s, b.Resumed s → b.IdsAgree s) (hm : b.Guided wid m) :
    b.Guided wid (m.micro b.toWorkflow wid) := by
  cases hp : m.phase with
  | body ctx st =>
    cases hn : b.toWorkflow.next st with
    | ret reply => exact hm.micro_ret hp hn
    | step stepId f k =>
      cases st with
      | inl t => exact hm.micro_step hp hn
      | inr e => cases hn
  | closure ctx stepId f k => exact hm.micro_closure hp
  | save ctx stepId result k => exact hm.micro_save hagree hp
  | returned reply =>
    have hmicro : m.micro b.toWorkflow wid = m := by simp only [Machine.micro, hp]
    rwa [hmicro]

/-- Every store that only this body has written stands at an answered state, when the ids agree, even
after crashes. -/
theorem Interrupted.at (hagree : ∀ s, b.Resumed s → b.IdsAgree s) {store : HistoryStore α}
    (h : b.Interrupted wid store) : ∃ s, b.At wid store s ∧ b.Resumed s := by
  induction h with
  | fresh hempty => exact ⟨b.start, by rw [At, hempty]; rfl, .refl⟩
  | run h ho ih =>
    obtain ⟨s, hat, hs⟩ := ih
    exact (loops_agree hagree (runs_iff.mp ho) rfl s hat hs).2
  | @cut store h engine world n ih =>
    obtain ⟨s, hat, hs⟩ := ih
    have hcut : b.Guided wid
        ((Machine.micro b.toWorkflow wid)^[n] (.start b.toWorkflow wid engine store world)) := by
      apply Function.Iterate.rec (b.Guided wid) (guided_start hat hs engine world)
      intro m hm
      exact hm.micro hagree
    obtain ⟨s', hat', hs', -⟩ := hcut.answered
    exact ⟨s', hat', hs'⟩

/-- **Crashes add nothing to failures.** However runs end or are cut short before, a body that handles
failures is never reported, and returns its straight-through result, exactly when it does so without
any crash: when the value of a step that follows raising steps has the id of the call that it is going
to answer, and answering the calls so leads to that result. -/
theorem failures_recover_iff (b : Handling σ ε α S) (wid : String) (world : σ) :
    (∀ store, b.Interrupted wid store → ∀ engine,
      (∀ o message, Runs b.toWorkflow .python wid engine store world o →
        o.reply ≠ .error (.nonDeterministic message)) ∧
      ∀ reply, b.Straight b.start reply →
        ∃ o, Runs b.toWorkflow .python wid engine store world o ∧ o.reply = ownReply reply) ↔
    (∀ s, b.Resumed s → b.IdsAgree s) ∧
      ∀ reply, b.Straight b.start reply → ∃ s, b.Resumed s ∧ b.EndsQuietly s reply := by
  constructor
  · intro hall
    have hfresh := hall .new (.fresh rfl) ⟨wid, 0⟩
    constructor
    · intro s hs stepId v stepId' outcome effect k hfirst hn
      by_contra hid
      obtain ⟨o, ho, message, hr⟩ := reported_of_disagree hs hfirst hn hid wid world
      exact hfresh.1 o message ho hr
    · intro reply hstraight
      obtain ⟨o, ho, hr⟩ := hfresh.2 reply hstraight
      exact loops_own (runs_iff.mp ho) rfl hr b.start rfl .refl
  · rintro ⟨hagree, hsame⟩ store hleft engine
    obtain ⟨s, hat, hs⟩ := hleft.at hagree
    constructor
    · intro o message ho
      exact (loops_agree hagree (runs_iff.mp ho) rfl s hat hs).1 message
    · intro reply hstraight
      obtain ⟨s', hs', hq⟩ := hsame reply hstraight
      refine loops_of_answers (P := fun r => r = ownReply reply) (path_to_quiet hs hs' hq) ?_
        { engine with wid } store world rfl hat
      intro engine store world he hat
      obtain ⟨o, ho, hr, -⟩ := hat.loops_quiet hq engine world
      exact ⟨o, ho, hr⟩

end Handling

end DurableExecution
