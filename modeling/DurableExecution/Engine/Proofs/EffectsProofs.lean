import DurableExecution.Engine.Effects
import DurableExecution.Engine.Proofs.FleetProofs

/-!
# Proofs: effects that happen once

At every moment, the history of a workflow is a prefix of its straight-through execution, and its part
of the world is the one before or the one after the step that comes next (`Once`). A repeated step
leads from either of the two to the one after it.
-/

namespace DurableExecution

namespace Script

variable {σ ε α υ : Type} {see : σ → υ} {v left : Script σ ε α} {n : ℕ} {h : List (HistoryEvent α)}
  {world here : σ}

/-- The straight-through execution of a script from `world`: the events of its first steps, what is
left of it, and the world in which this goes on. -/
inductive Passes : Script σ ε α → ℕ → σ → List (HistoryEvent α) → Script σ ε α → σ → Prop where
  | nil (w : Script σ ε α) (n : ℕ) (world : σ) : Passes w n world [] w world
  | cons {stepId : String} {f : σ → α × σ} {k : α → Script σ ε α} {n : ℕ} {world here : σ}
      {h : List (HistoryEvent α)} {w : Script σ ε α}
      (hp : Passes (k (f world).1) (n + 1) (f world).2 h w here) :
      Passes (step stepId f k) n world (⟨n, stepId, (f world).1⟩ :: h) w here

/-- It is a straight-through execution in the sense of `Trace`. -/
theorem Passes.trace (hp : Passes v n world h left here) : Trace v n h left := by
  induction hp with
  | nil w n world => exact .nil w n
  | cons hp ih => exact .cons _ ih

theorem Passes.feed (hp : Passes v n world h left here) (u : Script σ ε α) :
    u.body.feed v h = some left := hp.trace.feed u

/-- One more step. -/
theorem Passes.snoc {stepId : String} {f : σ → α × σ} {k : α → Script σ ε α}
    (hp : Passes v n world h (step stepId f k) here) :
    Passes v n world (h ++ [⟨n + h.length, stepId, (f here).1⟩]) (k (f here).1) (f here).2 := by
  generalize hs : step stepId f k = s at hp
  induction hp with
  | nil w n world =>
    subst hs
    exact .cons (.nil _ _ _)
  | @cons stepId' f' k' n world here h w hp ih =>
    have hrest := ih hs
    rw [List.length_cons, ← Nat.add_assoc, Nat.add_right_comm]
    exact .cons hrest

theorem Passes.straight (hp : Passes v n world h left here) :
    (v.straight n world).1 = h ++ (left.straight (n + h.length) here).1 ∧
      (v.straight n world).2 = (left.straight (n + h.length) here).2 := by
  induction hp with
  | nil w n world => exact ⟨rfl, rfl⟩
  | @cons stepId f k n world here h w hp ih =>
    obtain ⟨hevents, hend⟩ := ih
    rw [List.length_cons, ← Nat.add_assoc, Nat.add_right_comm n]
    exact ⟨congrArg (_ :: ·) hevents, hend⟩

theorem worldAfter_zero (v : Script σ ε α) (world : σ) : v.worldAfter 0 world = world := by
  cases v <;> rfl

theorem Passes.worldAfter (hp : Passes v n world h left here) (i : ℕ) :
    v.worldAfter (h.length + i) world = left.worldAfter i here := by
  induction hp with
  | nil w n world => rw [List.length_nil, Nat.zero_add]
  | @cons stepId f k n world here h w hp ih =>
    rw [List.length_cons, Nat.add_right_comm]
    exact ih

theorem Passes.repeatable (hp : Passes v n world h left here) (hv : v.Repeatable see world) :
    left.Repeatable see here := by
  induction hp with
  | nil w n world => exact hv
  | cons hp ih => exact ih hv.2.2

/-- The next event of the execution, and the world after it. -/
theorem Passes.next {stepId : String} {f : σ → α × σ} {k : α → Script σ ε α}
    (hp : Passes v 0 world h (step stepId f k) here) :
    (v.straight 0 world).1[h.length]? = some ⟨h.length, stepId, (f here).1⟩ ∧
      v.worldAfter (h.length + 1) world = (f here).2 := by
  constructor
  · rw [hp.straight.1, List.getElem?_append_right (Nat.le_refl _), Nat.sub_self, Nat.zero_add]
    rfl
  · rw [hp.worldAfter]
    exact worldAfter_zero _ _

/-- What is left of a script after a trace has the same step functions. -/
theorem Trace.allSteps {P : (σ → α × σ) → Prop} (ht : Trace v n h left) (hv : v.AllSteps P) :
    left.AllSteps P := by
  induction ht with
  | nil w n => exact hv
  | cons world ht ih => exact ih (hv.2 _)

end Script

namespace Fleet

open Script System

variable {σ ε α υ : Type} {see : σ → υ} {w : String → Script σ ε α} {s s' : Scripts σ ε α}
  {v left : Script σ ε α} {world here now : σ} {h : List (HistoryEvent α)} {wid : String}

/-- The world is the one before or the one after the step that comes next, as far as the part goes. -/
def AtOrAfter (see : σ → υ) (left : Script σ ε α) (here now : σ) : Prop :=
  see now = see here ∨ ∃ stepId f k, left = .step stepId f k ∧ see now = see (f here).2

/-- What holds of a workflow when `h` is stored and its run is in the phase `phase`, if there is
one. -/
structure Once (see : σ → υ) (v : Script σ ε α) (world : σ) (h : List (HistoryEvent α)) (now : σ)
    (phase : Option (Phase σ ε α (Script σ ε α ⊕ WorkflowError ε))) (left : Script σ ε α)
    (here : σ) : Prop where
  passes : v.Passes 0 world h left here
  part : AtOrAfter see left here now
  save : ∀ ctx stepId result k, phase = some (.save ctx stepId result k) →
    ∃ f j, left = .step stepId f j ∧ result = (f here).1 ∧ see now = see (f here).2

/-- A phase in which nothing waits to be saved. -/
theorem Once.of_phase {phase phase' : Option (Phase σ ε α (Script σ ε α ⊕ WorkflowError ε))}
    (ho : Once see v world h now phase left here)
    (hphase : ∀ ctx stepId result k, phase' ≠ some (.save ctx stepId result k)) :
    Once see v world h now phase' left here :=
  ⟨ho.passes, ho.part, fun ctx stepId result k heq => absurd heq (hphase ctx stepId result k)⟩

/-- What the others do to the world. -/
theorem Once.of_see {phase : Option (Phase σ ε α (Script σ ε α ⊕ WorkflowError ε))} {now' : σ}
    (ho : Once see v world h now phase left here) (hsee : see now' = see now) :
    Once see v world h now' phase left here := by
  obtain ⟨hpasses, hpart, hsave⟩ := ho
  refine ⟨hpasses, ?_, ?_⟩
  · unfold AtOrAfter
    rw [hsee]
    exact hpart
  · intro ctx stepId result k heq
    rw [hsee]
    exact hsave ctx stepId result k heq

section Micro

variable {store : HistoryStore α} {invoked cuts : List ℕ}
  {m : Machine σ ε α (Script σ ε α ⊕ WorkflowError ε)}

/-- Body code changes neither the store nor the world, and saves nothing. -/
theorem micro_body (v : Script σ ε α) (wid : String) {ctx : WorkflowContext α}
    {st : Script σ ε α ⊕ WorkflowError ε} (hp : m.phase = .body ctx st) :
    (m.micro v.toWorkflow wid).store = m.store ∧ (m.micro v.toWorkflow wid).world = m.world ∧
      ∀ ctx' stepId result k, (m.micro v.toWorkflow wid).phase ≠ .save ctx' stepId result k := by
  cases hs : v.toWorkflow.next st with
  | ret r =>
    by_cases hrep : r = .error .replay
    · subst hrep
      simp [Machine.micro, hp, hs]
    · have hmicro : m.micro v.toWorkflow wid = { m with phase := .returned r } := by
        simp only [Machine.micro, hp, hs]
      simp [hmicro]
  | step stepId f k =>
    cases hserve : (ctx.serve stepId : Option (Reply ε α × WorkflowContext α)) with
    | none => simp [Machine.micro, hp, hs, hserve]
    | some p => simp [Machine.micro, hp, hs, hserve]

/-- A step function of a script that is invoked. -/
theorem micro_closure (hm : Following v wid store invoked cuts m) {ctx : WorkflowContext α}
    {stepId : String} {f : StepFn σ ε α} {k : Reply ε α → Script σ ε α ⊕ WorkflowError ε}
    (hp : m.phase = .closure ctx stepId f k) :
    ∃ g j, v.feed (m.store.load wid) = some (.step stepId g j) ∧
      m.micro v.toWorkflow wid = { m with
        world := (g m.world).2
        phase := .save ⟨wid, m.store.load wid, (m.store.load wid).length⟩ stepId (g m.world).1 k } := by
  have hphase := hm.phase
  rw [hp] at hphase
  obtain ⟨rfl, left, hf, hs⟩ := hphase
  obtain ⟨g, j, rfl, rfl, -, -⟩ := Script.of_next_step hs
  exact ⟨g, j, hf, by simp only [Machine.micro, hp]⟩

/-- A result that is saved. -/
theorem micro_save (hm : Following v wid store invoked cuts m) {ctx : WorkflowContext α}
    {stepId : String} {result : α} {k : Reply ε α → Script σ ε α ⊕ WorkflowError ε}
    (hp : m.phase = .save ctx stepId result k) :
    (m.micro v.toWorkflow wid).store =
        m.store.save wid (m.store.load wid ++ [⟨(m.store.load wid).length, stepId, result⟩]) ∧
      (m.micro v.toWorkflow wid).world = m.world ∧
      ∀ ctx' stepId' result' k', (m.micro v.toWorkflow wid).phase ≠ .save ctx' stepId' result' k' := by
  have hphase := hm.phase
  rw [hp] at hphase
  obtain ⟨rfl, -⟩ := hphase
  simp [Machine.micro, hp, WorkflowContext.record, Engine.target]

/-- **A small step of the workflow itself.** -/
theorem Once.micro (hm : Following v wid store invoked cuts m) (hsees : v.AllSteps (SeesOnly see))
    (hrep : v.Repeatable see world)
    (ho : Once see v world (m.store.load wid) m.world (some m.phase) left here) :
    ∃ left' here', Once see v world ((m.micro v.toWorkflow wid).store.load wid)
      (m.micro v.toWorkflow wid).world (some (m.micro v.toWorkflow wid).phase) left' here' := by
  cases hp : m.phase with
  | body ctx st =>
    obtain ⟨hstore, hworld, hphase⟩ := micro_body v wid hp
    rw [hstore, hworld]
    refine ⟨left, here, ho.of_phase fun ctx' stepId result k heq => ?_⟩
    exact hphase ctx' stepId result k (Option.some.inj heq)
  | closure ctx stepId f k =>
    obtain ⟨g, j, hf, hmicro⟩ := micro_closure hm hp
    obtain rfl : left = .step stepId g j := Option.some.inj ((ho.passes.feed v).symm.trans hf)
    obtain ⟨hg, -⟩ := ho.passes.trace.allSteps hsees
    obtain ⟨hresult, hworld, -⟩ := ho.passes.repeatable hrep
    -- it runs in the world before the step, or once more in the world after it
    have honce : (g m.world).1 = (g here).1 ∧ see (g m.world).2 = see (g here).2 := by
      rcases ho.part with hbefore | ⟨stepId', f', k', heq, hafter⟩
      · exact hg _ _ hbefore
      · cases heq
        obtain ⟨hsame, hleft⟩ := hg _ _ hafter
        exact ⟨hsame.trans hresult, hleft.trans hworld⟩
    rw [hmicro]
    refine ⟨_, here, ho.passes, Or.inr ⟨stepId, g, j, rfl, honce.2⟩, ?_⟩
    intro ctx' stepId' result k' heq
    obtain ⟨-, rfl, rfl, -⟩ := Phase.save.inj (Option.some.inj heq)
    exact ⟨g, j, rfl, honce⟩
  | save ctx stepId result k =>
    obtain ⟨hstore, hworld, hphase⟩ := micro_save hm hp
    obtain ⟨f, j, rfl, rfl, hsee⟩ := ho.save ctx stepId result k (congrArg some hp)
    have hsnoc := ho.passes.snoc
    rw [Nat.zero_add] at hsnoc
    rw [hstore, hworld, HistoryStore.load_save]
    refine ⟨_, _, hsnoc, Or.inl hsee, fun ctx' stepId' result' k' heq => ?_⟩
    exact absurd (Option.some.inj heq) (hphase ctx' stepId' result' k')
  | returned reply =>
    have hmicro : m.micro v.toWorkflow wid = m := by simp only [Machine.micro, hp]
    rw [hmicro]
    exact ⟨left, here, ho⟩

/-- A small step of another workflow, which leaves the part as it is. -/
theorem see_micro (hm : Following v wid store invoked cuts m) (hleaves : v.AllSteps (Leaves see)) :
    see (m.micro v.toWorkflow wid).world = see m.world := by
  cases hp : m.phase with
  | body ctx st => rw [(micro_body v wid hp).2.1]
  | closure ctx stepId f k =>
    obtain ⟨g, j, hf, hmicro⟩ := micro_closure hm hp
    obtain ⟨left, htrace⟩ := hm.trace
    obtain rfl : left = .step stepId g j := Option.some.inj ((htrace.feed v).symm.trans hf)
    obtain ⟨hg, -⟩ := htrace.allSteps hleaves
    rw [hmicro]
    exact hg m.world
  | save ctx stepId result k => rw [(micro_save hm hp).2.1]
  | returned reply =>
    have hmicro : m.micro v.toWorkflow wid = m := by simp only [Machine.micro, hp]
    rw [hmicro]

end Micro

/-! ## Runs of the fleet -/

/-- What holds of the workflow `wid` of a fleet. -/
def OnceIn (see : σ → υ) (v : Script σ ε α) (world : σ) (s : Scripts σ ε α) (wid : String) : Prop :=
  ∃ left here, Once see v world (s.store.load wid) s.world ((s.jobs wid).map (·.phase)) left here

/-- **One action.** -/
theorem OnceIn.next (hs : ∀ id, Safe (w id) s id) (hsees : (w wid).AllSteps (SeesOnly see))
    (hleaves : ∀ id, id ≠ wid → (w id).AllSteps (Leaves see))
    (hrep : (w wid).Repeatable see world) {a : FleetAct σ} (happart : Apart see [a])
    (ho : OnceIn see (w wid) world s wid) (h : Fleet.next (bodies w) s a = some s') :
    OnceIn see (w wid) world s' wid := by
  obtain ⟨left, here, ho⟩ := ho
  cases a with
  | run id engine =>
    simp only [Fleet.next] at h
    cases hjob : s.jobs id with
    | some job => simp [hjob] at h
    | none =>
      simp only [hjob, Option.some.injEq] at h
      subst h
      refine ⟨left, here, ?_⟩
      by_cases hid : wid = id
      · subst hid
        apply ho.of_phase
        simp [Machine.start]
      · simpa [Function.update_of_ne hid] using ho
  | small id =>
    obtain ⟨job, hjob, rfl⟩ := Option.map_eq_some_iff.mp h
    have hfollow := (hs id).following hjob
    by_cases hid : wid = id
    · subst hid
      rw [hjob] at ho
      obtain ⟨left', here', ho'⟩ := Once.micro hfollow hsees hrep ho
      exact ⟨left', here', by simpa [absorb] using ho'⟩
    · have hload : (s.absorb id ((s.machine id job).micro (bodies w id) id)).store.load wid =
          s.store.load wid := hfollow.micro.other wid hid
      have hsee : see ((s.machine id job).micro (bodies w id) id).world = see s.world :=
        see_micro hfollow (hleaves id (Ne.symm hid))
      refine ⟨left, here, ?_⟩
      rw [hload]
      simpa [absorb, Function.update_of_ne hid] using ho.of_see hsee
  | cut id =>
    obtain ⟨job, hjob, rfl⟩ := Option.map_eq_some_iff.mp h
    refine ⟨left, here, ?_⟩
    by_cases hid : wid = id
    · subst hid
      apply ho.of_phase
      simp
    · simpa [Function.update_of_ne hid] using ho
  | outside change =>
    obtain rfl := Option.some.inj h
    exact ⟨left, here, ho.of_see (happart change List.mem_cons_self s.world)⟩

theorem onceIn_init {store : HistoryStore α} (hempty : store.load wid = []) (world : σ) :
    OnceIn see v world (init store world) wid := by
  refine ⟨v, world, ?_, Or.inl rfl, fun ctx stepId result k heq => ?_⟩
  · show v.Passes 0 world (store.load wid) v world
    rw [hempty]
    exact .nil v 0 world
  · cases heq

theorem OnceIn.runs (hs : ∀ id, Safe (w id) s id) (hsees : (w wid).AllSteps (SeesOnly see))
    (hleaves : ∀ id, id ≠ wid → (w id).AllSteps (Leaves see))
    (hrep : (w wid).Repeatable see world) {as : List (FleetAct σ)} (happart : Apart see as)
    (ho : OnceIn see (w wid) world s wid) (h : System.runs (Fleet.next (bodies w)) s as = some s') :
    OnceIn see (w wid) world s' wid := by
  induction as generalizing s with
  | nil =>
    obtain rfl := Option.some.inj h
    exact ho
  | cons a as ih =>
    obtain ⟨s₁, hfirst, hrest⟩ := runs_cons_iff.mp h
    have hone : Apart see [a] := fun change hmem =>
      happart change (List.mem_cons.mpr (Or.inl (List.mem_singleton.mp hmem)))
    have happart' : Apart see as := fun change hmem => happart change (List.mem_cons_of_mem a hmem)
    exact ih (fun id => safe_next hs hfirst id) happart' (ho.next hs hsees hleaves hrep hone hfirst)
      hrest

/-- What can be seen of it. -/
theorem OnceIn.exactlyOnce (hs : Safe v s wid) (ho : OnceIn see v world s wid) :
    ExactlyOnce see v world s wid := by
  obtain ⟨left, here, hpasses, hpart, hsave⟩ := ho
  refine ⟨?_, ?_, ?_⟩
  · rw [hpasses.straight.1]
    exact List.prefix_append _ _
  · intro engine ctx stepId result k hjob
    obtain ⟨f, j, rfl, rfl, hsee⟩ := hsave ctx stepId result k (by rw [hjob]; rfl)
    obtain ⟨hevent, hafter⟩ := hpasses.next
    rw [hafter]
    exact ⟨hevent, hsee⟩
  · intro engine reply hjob
    have hret := (hs.returned engine reply hjob).feed v
    obtain rfl : left = .ret reply := Option.some.inj ((hpasses.feed v).symm.trans hret)
    obtain ⟨hevents, hend⟩ := hpasses.straight
    rw [hevents, hend]
    refine ⟨(List.append_nil _).symm, rfl, ?_⟩
    rcases hpart with hbefore | ⟨stepId, f, k, heq, -⟩
    · exact hbefore
    · cases heq

/-! ## A step that is invoked twice -/

section Twice

open Steps

/-- The body is served the events that it asks for. -/
theorem leads_served (wid : String) (engine : Engine) (store : HistoryStore α) (world : σ) (invoked : List ℕ)
    (h₁ h₂ : List (HistoryEvent α)) {st : Script σ ε α} (hf : v.body.feed st h₂ = some left) :
    Leads (Machine.micro v.toWorkflow wid)
      ⟨engine, store, world, .body ⟨wid, h₁ ++ h₂, h₁.length⟩ (.inl st), invoked⟩
      ⟨engine, store, world, .body ⟨wid, h₁ ++ h₂, (h₁ ++ h₂).length⟩ (.inl left), invoked⟩ := by
  induction h₂ generalizing h₁ st with
  | nil =>
    obtain rfl := Option.some.inj hf
    rw [List.append_nil]
    exact .refl _
  | cons ev h₂ ih =>
    cases st with
    | ret reply => cases hf
    | step stepId g k =>
      by_cases hid : ev.stepId = stepId
      · subst hid
        have hrest : v.body.feed (k ev.result) h₂ = some left := by
          simpa [Propagating.feed, Script.body, Script.next] using hf
        have hev : (⟨wid, h₁ ++ ev :: h₂, h₁.length⟩ : WorkflowContext α).history[h₁.length]? =
            some ev := by simp
        have hserve : _ = some ((.ok ev.result : Reply ε α), _) := WorkflowContext.serve_match hev
        obtain ⟨f, j, hs, hj⟩ : ∃ f j, v.toWorkflow.next (.inl (.step ev.stepId g k)) =
            .step ev.stepId f j ∧ ∀ u, j (.ok u) = .inl (k u) := ⟨_, _, rfl, fun _ => rfl⟩
        have hnext := ih (h₁ ++ [ev]) hrest
        rw [List.append_assoc, List.singleton_append, List.length_append, List.length_singleton]
          at hnext
        refine .head ?_ hnext
        simp only [Machine.micro, hs, hserve, hj]
      · simp [Propagating.feed, Script.body, Script.next, hid] at hf

/-- A run comes to the save of the step that comes next. -/
theorem leads_save {store : HistoryStore α} {stepId : String} {f : σ → α × σ} {k : α → Script σ ε α}
    (hf : v.feed (store.load wid) = some (.step stepId f k)) (engine : Engine) (world : σ) :
    ∃ j, Leads (Machine.micro v.toWorkflow wid) (.start v.toWorkflow wid engine store world)
      ⟨{ engine with wid }, store, (f world).2,
        .save ⟨wid, store.load wid, (store.load wid).length⟩ stepId (f world).1 j,
        [(store.load wid).length]⟩ := by
  obtain ⟨g, j, hs, hg⟩ : ∃ g j, v.toWorkflow.next (.inl (.step stepId f k)) = .step stepId g j ∧
      ∀ x, g x = (.ok (f x).1, (f x).2) := ⟨_, _, rfl, fun _ => rfl⟩
  have hserved := leads_served wid { engine with wid } store world [] [] (store.load wid) hf
  have hend : ((⟨wid, store.load wid, (store.load wid).length⟩ : WorkflowContext α).serve stepId :
      Option (Reply ε α × WorkflowContext α)) = none := WorkflowContext.serve_eq_none_iff.mpr le_rfl
  have hcall : Machine.micro v.toWorkflow wid
      ⟨{ engine with wid }, store, world,
        .body ⟨wid, store.load wid, (store.load wid).length⟩ (.inl (.step stepId f k)), []⟩ =
      ⟨{ engine with wid }, store, world,
        .closure ⟨wid, store.load wid, (store.load wid).length⟩ stepId g j,
        [(store.load wid).length]⟩ := by
    simp only [Machine.micro, hs, hend, List.nil_append]
  refine ⟨j, (hserved.tail hcall).tail ?_⟩
  simp only [Machine.micro, hg]

/-- A fleet comes there. -/
theorem reach_save (hnone : s.jobs wid = none) {stepId : String} {f : σ → α × σ}
    {k : α → Script σ ε α} (hf : (w wid).feed (s.store.load wid) = some (.step stepId f k)) :
    ∃ as s', (∀ change, FleetAct.outside change ∉ as) ∧ runs (next (bodies w)) s as = some s' ∧
      s'.store = s.store ∧ s'.world = (f s.world).2 ∧ ∃ engine ctx j,
        s'.jobs wid = some ⟨engine, .save ctx stepId (f s.world).1 j⟩ ∧
        ctx = ⟨wid, s.store.load wid, (s.store.load wid).length⟩ := by
  obtain ⟨j, n, hn⟩ := leads_save hf ⟨"", 0⟩ s.world
  set m : Machine σ ε α (Script σ ε α ⊕ WorkflowError ε) :=
    .start (w wid).toWorkflow wid ⟨"", 0⟩ s.store s.world with hm
  have hstart : next (bodies w) s (.run wid ⟨"", 0⟩) =
      some (s.absorb wid { m with invoked := s.invoked wid ++ m.invoked }) := by
    simp [next, hnone, absorb, hm, Machine.start]
  have hsmall : runs (next (bodies w))
      (s.absorb wid { m with invoked := s.invoked wid ++ m.invoked }) (List.replicate n (.small wid)) = _ :=
    runs_small n m (s.invoked wid)
  rw [hn] at hsmall
  refine ⟨.run wid ⟨"", 0⟩ :: List.replicate n (.small wid), _, ?_,
    runs_cons_iff.mpr ⟨_, hstart, hsmall⟩, rfl, rfl, _, _, j, Function.update_self .., rfl⟩
  intro change hmem
  rcases List.mem_cons.mp hmem with heq | hmem
  · cases heq
  · cases (List.mem_replicate.mp hmem).2

/-- **A workflow whose effects happen once in every run has steps that can be repeated**: each of them
is cut before its save, and invoked again. -/
theorem repeatable_of_exactlyOnce {store : HistoryStore α}
    (hall : ∀ as s, runs (next (bodies w)) (init store world) as = some s → Apart see as →
      ExactlyOnce see (w wid) world s wid)
    (as : List (FleetAct σ)) (h : runs (next (bodies w)) (init store world) as = some s)
    (hin : ∀ change, FleetAct.outside change ∉ as) (hnone : s.jobs wid = none)
    (hpasses : (w wid).Passes 0 world (s.store.load wid) left s.world) :
    left.Repeatable see s.world := by
  induction left generalizing s as with
  | ret reply => trivial
  | step stepId f k ih =>
    obtain ⟨as₁, s₁, hin₁, h₁, hstore₁, hworld₁, engine, ctx, j, hjob₁, hctx⟩ :=
      reach_save hnone (hpasses.feed (w wid))
    have hreached := runs_append_iff.mpr ⟨s, h, h₁⟩
    obtain ⟨s₂, hcut, hnone₂, hstore₂, hworld₂⟩ : ∃ s₂, next (bodies w) s₁ (.cut wid) = some s₂ ∧
        s₂.jobs wid = none ∧ s₂.store = s.store ∧ s₂.world = (f s.world).2 :=
      ⟨_, Option.map_eq_some_iff.mpr ⟨_, hjob₁, rfl⟩, Function.update_self .., hstore₁, hworld₁⟩
    -- the step function once more, after a cut before the save
    have hfeed₂ : (w wid).feed (s₂.store.load wid) = some (.step stepId f k) := by
      rw [hstore₂]
      exact hpasses.feed (w wid)
    obtain ⟨as₃, s₃, hin₃, h₃, hstore₃, hworld₃, engine', ctx', j', hjob₃, -⟩ :=
      reach_save hnone₂ hfeed₂
    have htwice : runs (next (bodies w)) (init store world) ((as ++ as₁) ++ .cut wid :: as₃) =
        some s₃ := runs_append_iff.mpr ⟨s₁, hreached, runs_cons_iff.mpr ⟨s₂, hcut, h₃⟩⟩
    have hapart : Apart see ((as ++ as₁) ++ .cut wid :: as₃) := by
      intro change hmem
      simp [hin, hin₁, hin₃] at hmem
    obtain ⟨hevent, hsee⟩ := (hall _ _ htwice hapart).invoked engine' ctx' stepId _ j' hjob₃
    obtain ⟨hnext, hafter⟩ := hpasses.next
    rw [hstore₃, hstore₂, hworld₂, hnext] at hevent
    rw [hstore₃, hstore₂, hworld₃, hworld₂, hafter] at hsee
    have hresult : (f s.world).1 = (f (f s.world).2).1 := by
      injection hevent with hevent
      injection hevent
    -- and the steps after it, once it is saved
    obtain ⟨s₄, hsave, hload₄, hworld₄, hjob₄⟩ : ∃ s₄, next (bodies w) s₁ (.small wid) = some s₄ ∧
        s₄.store.load wid = s.store.load wid ++ [⟨(s.store.load wid).length, stepId, (f s.world).1⟩] ∧
        s₄.world = (f s.world).2 ∧ ∃ job, s₄.jobs wid = some job := by
      subst hctx
      refine ⟨_, Option.map_eq_some_iff.mpr ⟨_, hjob₁, rfl⟩, ?_, ?_, ?_⟩
      · simp [absorb, machine, Machine.micro, WorkflowContext.record, Engine.target]
      · simpa [absorb, machine, Machine.micro] using hworld₁
      · simp [absorb]
    obtain ⟨job₄, hjob₄⟩ := hjob₄
    obtain ⟨s₅, hcut₅, hnone₅, hstore₅, hworld₅⟩ : ∃ s₅, next (bodies w) s₄ (.cut wid) = some s₅ ∧
        s₅.jobs wid = none ∧ s₅.store = s₄.store ∧ s₅.world = s₄.world :=
      ⟨_, Option.map_eq_some_iff.mpr ⟨_, hjob₄, rfl⟩, Function.update_self .., rfl, rfl⟩
    have hsnoc := hpasses.snoc
    rw [Nat.zero_add, ← hload₄, ← hworld₄, ← hworld₅, ← hstore₅] at hsnoc
    have hrest := ih (f s.world).1 ((as ++ as₁) ++ [.small wid, .cut wid])
      (runs_append_iff.mpr ⟨s₁, hreached, runs_cons_iff.mpr ⟨s₄, hsave,
        runs_cons_iff.mpr ⟨s₅, hcut₅, rfl⟩⟩⟩) (by simp [hin, hin₁]) hnone₅ hsnoc
    rw [hworld₅, hworld₄] at hrest
    exact ⟨hresult.symm, hsee, hrest⟩

end Twice

/-- **Effects that happen exactly once.** Let the steps of a workflow work on a part of the world of
their own. In every interleaving with other workflows that leave this part alone, and with any number
of crashes, also between a step and its save, the workflow cannot be told from one that is executed
straight through, once, if and only if each step of that execution can be repeated right after it has
run. -/
theorem exactly_once_iff (w : String → Script σ ε α) (wid : String) (see : σ → υ)
    (hsees : (w wid).AllSteps (SeesOnly see))
    (hleaves : ∀ id, id ≠ wid → (w id).AllSteps (Leaves see)) (store : HistoryStore α)
    (hempty : ∀ id, store.load id = []) (world : σ) :
    (w wid).Repeatable see world ↔
      ∀ as s, runs (next (bodies w)) (init store world) as = some s → Apart see as →
        ExactlyOnce see (w wid) world s wid := by
  constructor
  · intro hrep as s h happart
    have honce := (onceIn_init (hempty wid) world).runs (safe_init w hempty world) hsees hleaves hrep
      happart h
    exact honce.exactlyOnce (safe_runs (safe_init w hempty world) h wid)
  · intro hall
    refine repeatable_of_exactlyOnce (s := init store world) hall [] rfl (by simp) rfl ?_
    show (w wid).Passes 0 world (store.load wid) (w wid) world
    rw [hempty]
    exact .nil _ _ _

/-- `order-1` sets a flag and reads it, every other workflow counts. -/
def flags (wid : String) : Script (Bool × ℕ) Empty ℕ :=
  if wid = "order-1" then
    .step "charge" (fun x => (7, (true, x.2))) fun a =>
      .step "check" (fun x => (if x.1 then 1 else 0, x)) fun b => .ret (.ok (a + b))
  else .step "count" (fun x => (x.2, (x.1, x.2 + 1))) fun a => .ret (.ok a)

/-- The order is cut before the save of its charge, another workflow runs, and the order is run to its
end. -/
theorem exactly_once_flags :
    ∃ s, runs (next (bodies flags)) (init .new (false, 0) : Scripts (Bool × ℕ) Empty ℕ)
        ([.run "order-1" ⟨"", 0⟩, .small "order-1", .small "order-1", .cut "order-1",
          .run "order-2" ⟨"", 0⟩, .small "order-2", .small "order-2", .run "order-1" ⟨"", 0⟩] ++
          List.replicate 12 (.small "order-1")) = some s ∧
      s.store.load "order-1" = [⟨0, "charge", 7⟩, ⟨1, "check", 1⟩] ∧ s.world.1 = true := by
  obtain ⟨s, hs, engine, hjob⟩ : ∃ s, runs (next (bodies flags))
      (init .new (false, 0) : Scripts (Bool × ℕ) Empty ℕ)
        ([.run "order-1" ⟨"", 0⟩, .small "order-1", .small "order-1", .cut "order-1",
          .run "order-2" ⟨"", 0⟩, .small "order-2", .small "order-2", .run "order-1" ⟨"", 0⟩] ++
          List.replicate 12 (.small "order-1")) = some s ∧
      ∃ engine, s.jobs "order-1" = some ⟨engine, .returned (.ok 8)⟩ := ⟨_, rfl, _, rfl⟩
  have hsees : (flags "order-1").AllSteps (SeesOnly Prod.fst) := by
    refine ⟨fun x y h => ⟨rfl, rfl⟩, fun _ => ⟨fun x y h => ⟨?_, h⟩, fun _ => trivial⟩⟩
    show (if x.1 = true then 1 else 0) = if y.1 = true then 1 else 0
    rw [h]
  have hleaves : ∀ id, id ≠ "order-1" → (flags id).AllSteps (Leaves Prod.fst) := by
    intro id hid
    rw [flags, if_neg hid]
    exact ⟨fun x => rfl, fun _ => trivial⟩
  have honce := (exactly_once_iff flags "order-1" Prod.fst hsees hleaves .new (fun _ => rfl)
    (false, 0)).mp ⟨rfl, rfl, rfl, rfl, trivial⟩ _ s hs (by intro change hmem; simp at hmem)
  obtain ⟨hload, -, hsee⟩ := honce.returned engine _ hjob
  exact ⟨s, hs, hload, hsee⟩

end Fleet

end DurableExecution
