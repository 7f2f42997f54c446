import DurableExecution.Engine.Hosting
import DurableExecution.Engine.Nested

/-!
# Proofs: runs within step functions

Only a step function that returns changes the store. It keeps the ids isolated exactly when the
running id of the engine is still the one of its context, and nobody else has recorded under this id
meanwhile.
-/

namespace DurableExecution

namespace NestedState

variable {α : Type} {start : HistoryStore α} {s s' : NestedState α}

/-- What the actions do, one case for each of the things that can happen. -/
inductive Step (s : NestedState α) : NestedAct α → NestedState α → Prop where
  | run {wid : String} (hfree : ∀ ctx outer, s.levels ≠ ⟨ctx, none⟩ :: outer) :
      Step s (.run wid) (s.enter wid)
  | served {stepId : String} {ctx ctx' : WorkflowContext α} {outer : List (Level α)}
      {reply : Reply Empty α} (hl : s.levels = ⟨ctx, none⟩ :: outer)
      (hserve : ctx.serve stepId = some (reply, ctx')) :
      Step s (.step stepId) { s with levels := ⟨ctx', none⟩ :: outer }
  | called {stepId : String} {ctx : WorkflowContext α} {outer : List (Level α)}
      (hl : s.levels = ⟨ctx, none⟩ :: outer) :
      Step s (.step stepId) { s with levels := ⟨ctx, some stepId⟩ :: outer }
  | done {result : α} {ctx : WorkflowContext α} {stepId : String} {outer : List (Level α)}
      (hl : s.levels = ⟨ctx, some stepId⟩ :: outer) :
      Step s (.done result) (s.record ctx stepId result outer)
  | raise {ctx : WorkflowContext α} {stepId : String} {outer : List (Level α)}
      (hl : s.levels = ⟨ctx, some stepId⟩ :: outer) :
      Step s .raise { s with levels := ⟨ctx, none⟩ :: outer }
  | replay {ctx : WorkflowContext α} {outer : List (Level α)}
      (hl : s.levels = ⟨ctx, none⟩ :: outer) :
      Step s .replay { s with
        engine := { s.engine with replays := s.engine.replays + 1 }
        levels := ⟨.new ctx.wid (s.store.load ctx.wid), none⟩ :: outer }
  | leave {ctx : WorkflowContext α} {outer : List (Level α)}
      (hl : s.levels = ⟨ctx, none⟩ :: outer) : Step s .leave { s with levels := outer }

theorem step_of_next {a : NestedAct α} (h : s.next a = some s') : s.Step a s' := by
  cases a with
  | run wid =>
    simp only [next] at h
    split at h
    · next hl =>
      obtain rfl := Option.some.inj h
      exact .run fun ctx outer hl' => by simp [hl] at hl'
    · next ctx stepId outer hl =>
      obtain rfl := Option.some.inj h
      exact .run fun ctx outer hl' => by simp [hl] at hl'
    · cases h
  | step stepId =>
    simp only [next] at h
    split at h
    · next ctx outer hl =>
      split at h
      · next reply ctx' hserve =>
        obtain rfl := Option.some.inj h
        exact .served hl hserve
      · obtain rfl := Option.some.inj h
        exact .called hl
    · cases h
  | done v =>
    simp only [next] at h
    split at h
    · next ctx stepId outer hl =>
      obtain rfl := Option.some.inj h
      exact .done hl
    · cases h
  | raise =>
    simp only [next] at h
    split at h
    · next ctx stepId outer hl =>
      obtain rfl := Option.some.inj h
      exact .raise hl
    · cases h
  | replay =>
    simp only [next] at h
    split at h
    · next ctx outer hl =>
      obtain rfl := Option.some.inj h
      exact .replay hl
    · cases h
  | leave =>
    simp only [next] at h
    split at h
    · next ctx outer hl =>
      obtain rfl := Option.some.inj h
      exact .leave hl
    · cases h

/-- The events that one more save adds to those of an id. -/
theorem filter_saves_record (s : NestedState α) (ctx : WorkflowContext α) (stepId : String) (v : α)
    (outer : List (Level α)) (wid : String) :
    ((s.record ctx stepId v outer).saves.filter fun x => x.context = wid).map (·.event) =
      (s.saves.filter fun x => x.context = wid).map (·.event) ++
        if ctx.wid = wid then [⟨ctx.history.length, stepId, v⟩] else [] := by
  simp only [record, List.filter_append, List.map_append]
  by_cases hw : ctx.wid = wid <;> simp [hw]

/-- **A step function that returns keeps the ids isolated exactly when** the running id is the one
of its context and the context's history is the stored one. -/
theorem isolated_record_iff (hs : s.Isolated start) (ctx : WorkflowContext α) (stepId : String) (v : α)
    (outer : List (Level α)) :
    (s.record ctx stepId v outer).Isolated start ↔
      s.engine.wid = ctx.wid ∧ ctx.history = s.store.load ctx.wid := by
  constructor
  · intro hs'
    have hmem : (⟨ctx.wid, s.engine.wid, ⟨ctx.history.length, stepId, v⟩⟩ : Saved α) ∈
        (s.record ctx stepId v outer).saves := by
      simp [record, Engine.target]
    have hwid : s.engine.wid = ctx.wid := hs'.own _ hmem
    refine ⟨hwid, ?_⟩
    have hload := hs'.history ctx.wid
    rw [filter_saves_record, if_pos rfl, ← List.append_assoc, ← hs.history ctx.wid] at hload
    have hsaved : (s.record ctx stepId v outer).store.load ctx.wid =
        ctx.history ++ [⟨ctx.history.length, stepId, v⟩] := by
      simp [record, Engine.target, WorkflowContext.record, hwid]
    rw [hsaved] at hload
    exact List.append_cancel_right hload
  · rintro ⟨hwid, hhist⟩
    constructor
    · intro x hx
      rcases List.mem_append.mp hx with hx | hx
      · exact hs.own x hx
      · obtain rfl := List.mem_singleton.mp hx
        exact hwid
    · intro wid
      rw [filter_saves_record, ← List.append_assoc, ← hs.history wid]
      by_cases hw : ctx.wid = wid
      · subst hw
        simp [record, Engine.target, WorkflowContext.record, hwid, hhist]
      · rw [if_neg hw, List.append_nil]
        have hne : wid ≠ s.engine.wid := fun heq => hw (hwid.symm.trans heq.symm)
        exact HistoryStore.load_save_of_ne _ hne _

/-- Every action but the return of a step function leaves the store and the saves as they are. -/
theorem Isolated.frame (hs : s.Isolated start) (hstore : s'.store = s.store)
    (hsaves : s'.saves = s.saves) : s'.Isolated start := by
  constructor
  · rw [hsaves]
    exact hs.own
  · rw [hsaves, hstore]
    exact hs.history

/-- One action. -/
theorem isolated_next_iff (s : NestedState α) (a : NestedAct α) (s' : NestedState α)
    (hs : s.Isolated start) (h : s.next a = some s') : s'.Isolated start ↔ s.RecordsOwn a := by
  cases step_of_next h with
  | @done v ctx stepId outer hl =>
    rw [isolated_record_iff hs]
    constructor
    · intro hown ctx' stepId' outer' hl'
      rw [hl] at hl'
      cases hl'
      exact hown
    · intro hown
      exact hown ctx stepId outer hl
  | run hfree => exact ⟨fun _ => trivial, fun _ => hs.frame rfl rfl⟩
  | served hl hserve => exact ⟨fun _ => trivial, fun _ => hs.frame rfl rfl⟩
  | called hl => exact ⟨fun _ => trivial, fun _ => hs.frame rfl rfl⟩
  | raise hl => exact ⟨fun _ => trivial, fun _ => hs.frame rfl rfl⟩
  | replay hl => exact ⟨fun _ => trivial, fun _ => hs.frame rfl rfl⟩
  | leave hl => exact ⟨fun _ => trivial, fun _ => hs.frame rfl rfl⟩

theorem isolated_init (engine : Engine) (start : HistoryStore α) :
    (init engine start).Isolated start where
  own := by simp [init]
  history := by simp [init]

/-- **Workflow ids are isolated in every state of a program exactly when** every step function of it
that returns finds the running id and the stored history of its own context. -/
theorem isolated_iff_recordsOwn {engine : Engine} {start : HistoryStore α} {as : List (NestedAct α)}
    {t : NestedState α} (h : System.runs next (init engine start) as = some t) :
    System.Always next (Isolated start) (init engine start) as ↔
      System.EachStep next RecordsOwn (init engine start) as :=
  System.always_iff_eachStep isolated_next_iff h (isolated_init engine start)

/-- A parent whose step runs a child on the same engine and then fails. The next run of the parent
takes the step without the child. -/
def childThenRetry : List (NestedAct ℕ) :=
  [.run "parent", .step "child", .run "c", .step "work", .done 7, .replay, .step "work", .leave,
    .raise, .leave, .run "parent", .step "child", .done 8]

/-- Both results are saved under their own ids. -/
theorem isolated_iff_recordsOwn_retry :
    System.Always next (Isolated .new) (init ⟨"", 0⟩ (.new : HistoryStore ℕ)) childThenRetry := by
  refine (isolated_iff_recordsOwn rfl).mpr ?_
  refine (System.eachStep_cons_iff rfl).mpr ⟨trivial, ?_⟩
  refine (System.eachStep_cons_iff rfl).mpr ⟨trivial, ?_⟩
  refine (System.eachStep_cons_iff rfl).mpr ⟨trivial, ?_⟩
  refine (System.eachStep_cons_iff rfl).mpr ⟨trivial, ?_⟩
  refine (System.eachStep_cons_iff rfl).mpr ⟨?child, ?_⟩
  case child =>
    intro ctx stepId outer hl
    cases hl
    exact ⟨rfl, rfl⟩
  refine (System.eachStep_cons_iff rfl).mpr ⟨trivial, ?_⟩
  refine (System.eachStep_cons_iff rfl).mpr ⟨trivial, ?_⟩
  refine (System.eachStep_cons_iff rfl).mpr ⟨trivial, ?_⟩
  refine (System.eachStep_cons_iff rfl).mpr ⟨trivial, ?_⟩
  refine (System.eachStep_cons_iff rfl).mpr ⟨trivial, ?_⟩
  refine (System.eachStep_cons_iff rfl).mpr ⟨trivial, ?_⟩
  refine (System.eachStep_cons_iff rfl).mpr ⟨trivial, ?_⟩
  refine (System.eachStep_cons_iff rfl).mpr ⟨?parent, System.eachStep_nil _ _⟩
  case parent =>
    intro ctx stepId outer hl
    cases hl
    exact ⟨rfl, rfl⟩

/-- A parent whose step runs a child on the same engine. -/
def childInStep : List (NestedAct ℕ) :=
  [.run "parent", .step "child", .run "c", .step "work", .done 7, .replay, .step "work", .leave,
    .done 8]

/-- The result of the parent's step is saved under the id of the child. -/
theorem childInStep_not_isolated :
    ¬ ∀ t, System.runs next (init ⟨"", 0⟩ .new) childInStep = some t → t.Isolated .new := by
  intro hall
  obtain ⟨t, ht, hload⟩ : ∃ t, System.runs next (init ⟨"", 0⟩ .new) childInStep = some t ∧
      t.store.load "parent" = [] ∧ t.saves.filter (fun x => x.context = "parent") ≠ [] :=
    ⟨_, rfl, rfl, by decide⟩
  have hhist := (hall t ht).history "parent"
  rw [hload.1, HistoryStore.load_new, List.nil_append] at hhist
  exact hload.2 (List.map_eq_nil_iff.mp hhist.symm)

/-! ## Runs one after the other -/

/-- The only run in progress is the one whose id the engine keeps, and its context has the stored
history. -/
def Current (s : NestedState α) : Prop :=
  ∀ l outer, s.levels = l :: outer →
    outer = [] ∧ s.engine.wid = l.ctx.wid ∧ l.ctx.history = s.store.load l.ctx.wid

theorem Current.recordsOwn (hs : s.Current) (a : NestedAct α) : s.RecordsOwn a := by
  cases a with
  | done v =>
    intro ctx stepId outer hl
    exact (hs _ outer hl).2
  | _ => trivial

/-- One level in the place of another with the same id and history. -/
theorem Current.replace (hs : s.Current) {l l' : Level α} {outer : List (Level α)}
    (hl : s.levels = l :: outer) (hwid : l'.ctx.wid = l.ctx.wid)
    (hhist : l'.ctx.history = l.ctx.history) : ({ s with levels := l' :: outer } : NestedState α).Current := by
  obtain ⟨houter, hcur, hstored⟩ := hs l outer hl
  intro l'' outer' hl'
  obtain ⟨rfl, rfl⟩ := List.cons.inj hl'
  rw [hwid, hhist]
  exact ⟨houter, hcur, hstored⟩

theorem Current.next (hs : s.Current) {a : NestedAct α} (hseq : s.Sequential a)
    (h : s.next a = some s') : s'.Current := by
  cases step_of_next h with
  | run hfree =>
    intro l outer hl'
    obtain ⟨rfl, rfl⟩ := List.cons.inj hl'
    exact ⟨hseq, rfl, rfl⟩
  | served hl hserve =>
    obtain ⟨hwid, hhist⟩ := WorkflowContext.serve_frame hserve
    exact hs.replace hl hwid hhist
  | called hl => exact hs.replace hl rfl rfl
  | done hl =>
    obtain ⟨houter, hcur, hstored⟩ := hs _ _ hl
    intro l outer' hl'
    obtain ⟨rfl, rfl⟩ := List.cons.inj hl'
    refine ⟨houter, hcur, ?_⟩
    show _ = (s.store.save s.engine.wid _).load _
    rw [← hcur, HistoryStore.load_save]
  | raise hl => exact hs.replace hl rfl rfl
  | replay hl =>
    obtain ⟨houter, hcur, -⟩ := hs _ _ hl
    intro l outer' hl'
    obtain ⟨rfl, rfl⟩ := List.cons.inj hl'
    exact ⟨houter, hcur, rfl⟩
  | leave hl =>
    obtain ⟨rfl, -⟩ := hs _ _ hl
    intro l outer' hl'
    cases hl'

/-- **Runs one after the other keep the ids isolated.** -/
theorem isolated_of_sequential {engine : Engine} {start : HistoryStore α} {as : List (NestedAct α)}
    {t : NestedState α} (h : System.runs next (init engine start) as = some t)
    (hseq : System.EachStep next Sequential (init engine start) as) :
    System.Always next (Isolated start) (init engine start) as := by
  have hinit : (init engine start).Current := by
    intro l outer hl
    cases hl
  have hcurrent := System.always_of_eachStep (fun _ _ _ hs hc hn => Current.next hs hc hn) h hinit hseq
  refine (isolated_iff_recordsOwn h).mpr fun as₁ a as₂ u heq hu => ?_
  exact (hcurrent as₁ (a :: as₂) u heq hu).recordsOwn a

/-! ## The runs of the engine are such actions -/

/-- The innermost run stands in its body, and the runs around it are `outer`. -/
def InBody (outer : List (Level α)) (engine : Engine) (store : HistoryStore α)
    (ctx : WorkflowContext α) (s : NestedState α) : Prop :=
  s.engine = engine ∧ s.store = store ∧ s.levels = ⟨ctx, none⟩ :: outer

/-- The run has ended, and the runs around it are as they were. -/
def Left (outer : List (Level α)) (engine : Engine) (store : HistoryStore α) (s : NestedState α) :
    Prop :=
  s.engine = engine ∧ s.store = store ∧ s.levels = outer

theorem hosts (ε : Type) (outer : List (Level α)) :
    Hosts ε next .python (InBody outer) (Left outer) where
  served := by
    rintro _ _ ctx s stepId reply ctx' ⟨rfl, rfl, hl⟩ hserve
    refine ⟨[.step stepId], { s with levels := ⟨ctx', none⟩ :: outer }, ?_, rfl, rfl, rfl⟩
    simp [System.runs, next, hl, hserve]
  failed := by
    rintro _ _ ctx s stepId e ⟨rfl, rfl, hl⟩ hend
    refine ⟨[.step stepId, .raise], { s with levels := ⟨ctx, none⟩ :: outer }, ?_, rfl, rfl, rfl⟩
    simp [System.runs, next, hl, WorkflowContext.serve_eq_none_iff.mpr hend]
  recorded := by
    rintro _ _ ctx s stepId v ⟨rfl, rfl, hl⟩ hend
    refine ⟨[.step stepId, .done v], s.record ctx stepId v outer, ?_, rfl, rfl, rfl⟩
    refine System.runs_cons_iff.mpr ⟨{ s with levels := ⟨ctx, some stepId⟩ :: outer }, ?_, rfl⟩
    simp [next, hl, WorkflowContext.serve_eq_none_iff.mpr hend]
  replay := by
    rintro _ _ ctx s ⟨rfl, rfl, hl⟩
    refine ⟨[.replay], { s with
      engine := { s.engine with replays := s.engine.replays + 1 }
      levels := ⟨.new ctx.wid (s.store.load ctx.wid), none⟩ :: outer }, ?_, rfl, rfl, rfl⟩
    simp [System.runs, next, hl]
  leave := by
    rintro _ _ ctx s ⟨rfl, rfl, hl⟩
    refine ⟨[.leave], { s with levels := outer }, ?_, rfl, rfl, rfl⟩
    simp [System.runs, next, hl]

/-- **A call of `run`, from the program or from a step function, is such actions**, and leaves the
runs around it as they were. -/
theorem runs_of_run {σ ε S : Type} {w : Workflow σ ε α S} {wid : String} {world : σ}
    {o : Outcome σ ε α} (hfree : ∀ ctx outer, s.levels ≠ ⟨ctx, none⟩ :: outer)
    (h : Runs w .python wid s.engine s.store world o) :
    System.Reaches next s (Left s.levels o.engine o.store) := by
  have hrun : s.next (.run wid) = some (s.enter wid) := by
    simp only [next]
    split
    · rfl
    · rfl
    · next ctx outer hl => exact absurd hl (hfree ctx outer)
  have henter : System.Reaches next s (InBody s.levels { s.engine with wid } s.store
      (.new wid (s.store.load wid))) :=
    ⟨[.run wid], s.enter wid, System.runs_cons_iff.mpr ⟨_, hrun, rfl⟩, rfl, rfl, rfl⟩
  exact henter.trans fun s' hs' => (hosts ε s.levels).loops (runs_iff.mp h) hs'

end NestedState

end DurableExecution
