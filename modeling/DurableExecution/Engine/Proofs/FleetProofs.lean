import Mathlib.Order.RelClasses
import DurableExecution.Library.Fairness
import DurableExecution.Engine.Fleet
import DurableExecution.Engine.Proofs.CrashProofs

/-!
# Proofs: a fleet of engines

A small step of one run changes the history of its own id only, so what an attempt keeps (`Following`)
is kept for every id at once, however the runs interleave. A run that takes small steps again and
again returns: each of them brings it nearer to the end of what is left of its script, and the other
runs can change the results that its step functions return, but not how far it has come.
-/

namespace DurableExecution

namespace Fleet

open System

variable {σ ε α : Type}

/-- A fleet of scripts. -/
abbrev Scripts (σ ε α : Type) := Fleet σ ε α (Script σ ε α ⊕ WorkflowError ε)

/-- The workflows as the engines run them. -/
abbrev bodies (w : String → Script σ ε α) (wid : String) :
    Workflow σ ε α (Script σ ε α ⊕ WorkflowError ε) := (w wid).toWorkflow

/-- The position of the step function of `wid` that is invoked but not saved. -/
def pending (s : Scripts σ ε α) (wid : String) : List ℕ :=
  (s.jobs wid).elim [] fun job => job.phase.pending

/-- What holds of each id: its history is a prefix of a straight-through execution, its run has
followed the history, and its step functions were invoked once for each event and for each cut. -/
structure Safe (w : Script σ ε α) (s : Scripts σ ε α) (wid : String) : Prop where
  trace : ∃ left, w.Trace 0 (s.store.load wid) left
  phase : ∀ job, s.jobs wid = some job → Follows w wid (s.store.load wid) job.phase
  returned : ∀ engine reply, s.jobs wid = some ⟨engine, .returned reply⟩ →
    w.StraightThrough (s.store.load wid) reply
  count : (s.invoked wid).Perm
    (List.range (s.store.load wid).length ++ s.cuts wid ++ s.pending wid)

variable {w : String → Script σ ε α} {s s' : Scripts σ ε α} {wid : String}
  {job : Job σ ε α (Script σ ε α ⊕ WorkflowError ε)}

/-- The run of a safe id is an attempt. -/
theorem Safe.following (h : Safe (w wid) s wid) (hjob : s.jobs wid = some job) :
    Following (w wid) wid s.store [] (s.cuts wid) (s.machine wid job) := by
  have hcount := h.count
  unfold pending at hcount
  rw [hjob] at hcount
  exact ⟨h.trace, h.phase job hjob, hcount, fun _ _ => rfl⟩

/-- A body that comes to its end has been served the whole history. -/
theorem left_of_ret {v left : Script σ ε α} {h : List (HistoryEvent α)} (htrace : v.Trace 0 h left)
    {i : ℕ} (hi : i ≤ h.length) {reply : Reply ε α} (hf : v.feed (h.take i) = some (.ret reply)) :
    left = .ret reply := by
  rcases hi.lt_or_eq with hlt | rfl
  · obtain ⟨t, f, k, ht, hn⟩ := Propagating.feed_prefix (htrace.feed v) hlt
    obtain rfl := Option.some.inj (ht.symm.trans hf)
    cases hn
  · rw [List.take_length] at hf
    exact Option.some.inj ((htrace.feed v).symm.trans hf)

/-- A run returns what the straight-through execution of its script returns. -/
theorem straightThrough_of_micro {v : Script σ ε α} {store : HistoryStore α} {invoked cuts : List ℕ}
    {m : Machine σ ε α (Script σ ε α ⊕ WorkflowError ε)} (hm : Following v wid store invoked cuts m)
    {reply : Reply ε α} (hold : ∀ r, m.phase = .returned r → v.StraightThrough (m.store.load wid) r)
    (hr : (m.micro v.toWorkflow wid).phase = .returned reply) :
    v.StraightThrough ((m.micro v.toWorkflow wid).store.load wid) reply := by
  obtain ⟨left, htrace⟩ := hm.trace
  have hphase := hm.phase
  cases hp : m.phase with
  | body ctx st =>
    rw [hp] at hphase
    cases hs : v.toWorkflow.next st with
    | ret r =>
      by_cases hrep : r = .error .replay
      · subst hrep
        simp [Machine.micro, hp, hs] at hr
      · have hmicro : m.micro v.toWorkflow wid = { m with phase := .returned r } := by
          simp only [Machine.micro, hp, hs]
        rw [hmicro] at hr ⊢
        obtain rfl : r = reply := Phase.returned.inj hr
        rcases st with st | e
        · obtain ⟨i, hi, -, hf⟩ := hphase
          have hret : v.body.next st = .ret r := by
            cases st with
            | ret r' =>
              cases hs
              rfl
            | step stepId f k => cases hs
          obtain rfl := Script.eq_ret_of_next hret
          obtain rfl := left_of_ret htrace hi hf
          exact htrace
        · obtain rfl : e = .replay := hphase
          cases hs
          exact absurd rfl hrep
    | step stepId f k =>
      cases hserve : (ctx.serve stepId : Option (Reply ε α × WorkflowContext α)) with
      | none => simp [Machine.micro, hp, hs, hserve] at hr
      | some p => simp [Machine.micro, hp, hs, hserve] at hr
  | closure ctx stepId f k =>
    obtain ⟨r, world, hf⟩ : ∃ r world, f m.world = (r, world) := ⟨_, _, rfl⟩
    cases r <;> simp [Machine.micro, hp, hf] at hr
  | save ctx stepId result k => simp [Machine.micro, hp, WorkflowContext.record] at hr
  | returned r =>
    have hmicro : m.micro v.toWorkflow wid = m := by simp only [Machine.micro, hp]
    rw [hmicro] at hr ⊢
    exact hold reply hr

/-- A fact about one id that depends on its own part of the fleet only. -/
theorem Safe.congr {v : Script σ ε α} (h : Safe v s wid) (hload : s'.store.load wid = s.store.load wid)
    (hjobs : s'.jobs wid = s.jobs wid) (hinvoked : s'.invoked wid = s.invoked wid)
    (hcuts : s'.cuts wid = s.cuts wid) : Safe v s' wid := by
  obtain ⟨htrace, hphase, hreturned, hcount⟩ := h
  refine ⟨?_, ?_, ?_, ?_⟩
  · rw [hload]
    exact htrace
  · rw [hload, hjobs]
    exact hphase
  · rw [hload, hjobs]
    exact hreturned
  · unfold pending at hcount ⊢
    rw [hload, hjobs, hinvoked, hcuts]
    exact hcount

/-- **One action keeps every id safe.** -/
theorem safe_next (hs : ∀ id, Safe (w id) s id) {a : FleetAct σ} (h : next (bodies w) s a = some s')
    (id : String) : Safe (w id) s' id := by
  cases a with
  | run wid engine =>
    simp only [next] at h
    cases hjob : s.jobs wid with
    | some job => simp [hjob] at h
    | none =>
      simp only [hjob, Option.some.injEq] at h
      subst h
      by_cases hid : id = wid
      · subst hid
        obtain ⟨htrace, -, -, hcount⟩ := hs id
        refine ⟨htrace, ?_, ?_, ?_⟩
        · intro job hj
          simp only [Function.update_self, Option.some.injEq] at hj
          subst hj
          exact ⟨0, Nat.zero_le _, rfl, rfl⟩
        · intro engine' reply hj
          simp [Machine.start] at hj
        · unfold pending at hcount ⊢
          rw [hjob] at hcount
          simpa [Machine.start, Phase.pending] using hcount
      · exact (hs id).congr rfl (Function.update_of_ne hid _ _) rfl rfl
  | small wid =>
    obtain ⟨job, hjob, rfl⟩ := Option.map_eq_some_iff.mp h
    have hfollow := (hs wid).following hjob
    have hmicro := hfollow.micro
    by_cases hid : id = wid
    · subst hid
      refine ⟨hmicro.trace, ?_, ?_, ?_⟩
      · intro job' hj
        simp only [absorb, Function.update_self, Option.some.injEq] at hj
        subst hj
        exact hmicro.phase
      · intro engine reply hj
        simp only [absorb, Function.update_self, Option.some.injEq, Job.mk.injEq] at hj
        refine straightThrough_of_micro hfollow ?_ hj.2
        intro r hr
        refine (hs id).returned job.engine r ?_
        rw [hjob]
        exact congrArg some (by cases job; exact congrArg _ hr)
      · have hcount := hmicro.count
        simpa [absorb, pending] using hcount
    · have hother := hmicro.other id hid
      exact (hs id).congr hother (Function.update_of_ne hid _ _) (Function.update_of_ne hid _ _) rfl
  | cut wid =>
    obtain ⟨job, hjob, rfl⟩ := Option.map_eq_some_iff.mp h
    by_cases hid : id = wid
    · subst hid
      obtain ⟨htrace, -, -, hcount⟩ := hs id
      refine ⟨htrace, ?_, ?_, ?_⟩
      · intro job' hj
        simp at hj
      · intro engine reply hj
        simp at hj
      · unfold pending at hcount ⊢
        rw [hjob] at hcount
        simpa [List.append_assoc] using hcount
    · exact (hs id).congr rfl (Function.update_of_ne hid _ _) rfl (Function.update_of_ne hid _ _)
  | outside change =>
    obtain rfl := Option.some.inj h
    exact (hs id).congr rfl rfl rfl rfl

theorem safe_init (w : String → Script σ ε α) {store : HistoryStore α}
    (hempty : ∀ id, store.load id = []) (world : σ) (id : String) : Safe (w id) (init store world) id := by
  refine ⟨⟨w id, ?_⟩, ?_, ?_, ?_⟩
  · show (w id).Trace 0 (store.load id) (w id)
    rw [hempty]
    exact .nil _ _
  · intro job hj
    cases hj
  · intro engine reply hj
    cases hj
  · show List.Perm [] (List.range (store.load id).length ++ [] ++ [])
    rw [hempty]
    exact List.Perm.refl _

theorem safe_runs (hs : ∀ id, Safe (w id) s id) {as : List (FleetAct σ)}
    (h : runs (next (bodies w)) s as = some s') (id : String) : Safe (w id) s' id :=
  runs_invariant (P := fun s => ∀ id, Safe (w id) s id) (fun _ _ _ hs h => safe_next hs h) h hs id

/-! ## The log -/

/-- A small step saves nothing, or the history of the context and one event more. -/
theorem load_micro {v : Script σ ε α} {store : HistoryStore α} {invoked cuts : List ℕ}
    {m : Machine σ ε α (Script σ ε α ⊕ WorkflowError ε)} (hm : Following v wid store invoked cuts m) :
    m.store.load wid <+: (m.micro v.toWorkflow wid).store.load wid := by
  have hphase := hm.phase
  cases hp : m.phase with
  | body ctx st =>
    cases hs : v.toWorkflow.next st with
    | ret r =>
      by_cases hrep : r = .error .replay
      · subst hrep
        simp [Machine.micro, hp, hs]
      · have hmicro : m.micro v.toWorkflow wid = { m with phase := .returned r } := by
          simp only [Machine.micro, hp, hs]
        simp [hmicro]
    | step stepId f k =>
      cases hserve : (ctx.serve stepId : Option (Reply ε α × WorkflowContext α)) with
      | none => simp [Machine.micro, hp, hs, hserve]
      | some p => simp [Machine.micro, hp, hs, hserve]
  | closure ctx stepId f k =>
    obtain ⟨r, world, hf⟩ : ∃ r world, f m.world = (r, world) := ⟨_, _, rfl⟩
    cases r <;> simp [Machine.micro, hp, hf]
  | save ctx stepId result k =>
    rw [hp] at hphase
    obtain ⟨rfl, -⟩ := hphase
    simp [Machine.micro, hp, WorkflowContext.record, Engine.target]
  | returned r => simp [Machine.micro, hp]

/-- No action removes or changes a recorded event. -/
theorem load_next (hs : ∀ id, Safe (w id) s id) {a : FleetAct σ} (h : next (bodies w) s a = some s')
    (id : String) : s.store.load id <+: s'.store.load id := by
  cases a with
  | run wid engine =>
    simp only [next] at h
    split at h
    · obtain rfl := Option.some.inj h
      exact List.prefix_rfl
    · cases h
  | small wid =>
    obtain ⟨job, hjob, rfl⟩ := Option.map_eq_some_iff.mp h
    have hfollow := (hs wid).following hjob
    by_cases hid : id = wid
    · subst hid
      exact load_micro hfollow
    · have hother : (s.absorb wid ((s.machine wid job).micro (bodies w wid) wid)).store.load id =
          s.store.load id := hfollow.micro.other id hid
      exact hother ▸ List.prefix_rfl
  | cut wid =>
    obtain ⟨job, hjob, rfl⟩ := Option.map_eq_some_iff.mp h
    exact List.prefix_rfl
  | outside change =>
    obtain rfl := Option.some.inj h
    exact List.prefix_rfl

theorem load_runs (hs : ∀ id, Safe (w id) s id) {as : List (FleetAct σ)}
    (h : runs (next (bodies w)) s as = some s') (id : String) :
    s.store.load id <+: s'.store.load id :=
  runs_relation (P := fun s => ∀ id, Safe (w id) s id)
    (R := fun s s' => s.store.load id <+: s'.store.load id) (fun _ _ _ hs h => safe_next hs h)
    (fun _ => List.prefix_rfl) (fun _ _ _ h h' => h.trans h') (fun _ _ _ hs h => load_next hs h id) h hs

/-- **Workflows that share a store and a world do not disturb each other**, in every interleaving of
their runs with any number of crashes: each history is a prefix of a straight-through execution of
its own workflow and is only appended to, a run that has returned has the reply and the history of
one, and the step function at each recorded position was invoked once, and once more for each cut
between its invocation and its save. -/
theorem fleet_safe (w : String → Script σ ε α) (store : HistoryStore α)
    (hempty : ∀ id, store.load id = []) (world : σ) (as : List (FleetAct σ)) (s : Scripts σ ε α)
    (h : runs (next (bodies w)) (init store world) as = some s) (wid : String) :
    (∃ left, (w wid).Trace 0 (s.store.load wid) left) ∧
      (∀ engine reply, s.jobs wid = some ⟨engine, .returned reply⟩ →
        (w wid).StraightThrough (s.store.load wid) reply) ∧
      (∀ i, i < (s.store.load wid).length →
        (s.invoked wid).count i = 1 + (s.cuts wid).count i) ∧
      ∀ more s', runs (next (bodies w)) s more = some s' →
        s.store.load wid <+: s'.store.load wid := by
  have hsafe := safe_runs (safe_init w hempty world) h
  refine ⟨(hsafe wid).trace, (hsafe wid).returned, ?_, fun more s' hmore => load_runs hsafe hmore wid⟩
  intro i hi
  -- the position that is pending is not recorded yet
  have hpending : (s.pending wid).count i = 0 := by
    rw [List.count_eq_zero]
    unfold pending
    cases hjob : s.jobs wid with
    | none => simp
    | some job =>
      have hphase := (hsafe wid).phase job hjob
      cases hp : job.phase with
      | body ctx st => simp [hp, Phase.pending]
      | returned r => simp [hp, Phase.pending]
      | closure ctx stepId f k =>
        rw [hp] at hphase
        obtain ⟨rfl, -⟩ := hphase
        simp only [Option.elim_some, hp, Phase.pending, List.mem_singleton]
        omega
      | save ctx stepId result k =>
        rw [hp] at hphase
        obtain ⟨rfl, -⟩ := hphase
        simp only [Option.elim_some, hp, Phase.pending, List.mem_singleton]
        omega
  rw [(hsafe wid).count.count_eq, List.count_append, List.count_append, hpending, List.count_range,
    if_pos hi, Nat.add_zero]

/-! ## Attempts that are cut short -/

section Attempts

variable {S : Type} {w : String → Workflow σ ε α S} {s : Fleet σ ε α S} {wid : String}

/-- What the runs of `wid` have left behind. -/
def durable (s : Fleet σ ε α S) (wid : String) : Durable σ α :=
  ⟨s.store, s.world, s.invoked wid, s.cuts wid⟩

/-- A small step adds to the invocations, whatever they are. -/
theorem micro_invoked (w : Workflow σ ε α S) (wid : String) (m : Machine σ ε α S) (seen : List ℕ) :
    ({ m with invoked := seen ++ m.invoked }).micro w wid =
      { m.micro w wid with invoked := seen ++ (m.micro w wid).invoked } := by
  cases hp : m.phase with
  | body ctx st =>
    cases hs : w.next st with
    | ret reply =>
      rcases reply with e | v
      · cases e <;> simp only [Machine.micro, hp, hs]
      · simp only [Machine.micro, hp, hs]
    | step stepId f k =>
      cases hserve : (ctx.serve stepId : Option (Reply ε α × WorkflowContext α)) with
      | none => simp only [Machine.micro, hp, hs, hserve, List.append_assoc]
      | some p => simp only [Machine.micro, hp, hs, hserve]
  | closure ctx stepId f k =>
    obtain ⟨reply, world, hf⟩ : ∃ reply world, f m.world = (reply, world) := ⟨_, _, rfl⟩
    cases reply <;> simp only [Machine.micro, hp, hf]
  | save ctx stepId result k => simp only [Machine.micro, hp]
  | returned reply => simp only [Machine.micro, hp]

/-- The small steps of one run, with the others at rest. -/
theorem runs_small (n : ℕ) (m : Machine σ ε α S) (seen : List ℕ) :
    runs (next w) (s.absorb wid { m with invoked := seen ++ m.invoked }) (List.replicate n (.small wid)) =
      some (s.absorb wid { (Machine.micro (w wid) wid)^[n] m with
        invoked := seen ++ ((Machine.micro (w wid) wid)^[n] m).invoked }) := by
  induction n generalizing m with
  | zero => rfl
  | succ n ih =>
    rw [List.replicate_succ, runs_cons_iff]
    refine ⟨s.absorb wid { m.micro (w wid) wid with
      invoked := seen ++ (m.micro (w wid) wid).invoked }, ?_, ih _⟩
    have hmicro := micro_invoked (w wid) wid m seen
    simp [next, absorb, machine, hmicro]

/-- An attempt that is cut short is a run of the fleet. -/
theorem runs_attempt (hnone : s.jobs wid = none) (a : Attempt σ) :
    ∃ as s', runs (next w) s as = some s' ∧ s'.jobs wid = none ∧
      s'.durable wid = (s.durable wid).attempt (w wid) wid a := by
  set m : Machine σ ε α S := .start (w wid) wid a.engine s.store s.world with hm
  have hstart : next w s (.run wid a.engine) =
      some (s.absorb wid { m with invoked := s.invoked wid ++ m.invoked }) := by
    simp [next, hnone, absorb, hm, Machine.start]
  set m' := (Machine.micro (w wid) wid)^[a.cut] m with hm'
  set t := s.absorb wid { m' with invoked := s.invoked wid ++ m'.invoked } with ht
  have hjob : t.jobs wid = some ⟨m'.engine, m'.phase⟩ := Function.update_self ..
  have hend : runs (next w) t [.cut wid, .outside a.after] = some { t with
      world := a.after t.world
      jobs := Function.update t.jobs wid none
      cuts := Function.update t.cuts wid (t.cuts wid ++ m'.phase.pending) } := by
    simp [runs, next, hjob]
  refine ⟨_, _, runs_cons_iff.mpr ⟨_, hstart, runs_append_iff.mpr ⟨t, runs_small a.cut m _, hend⟩⟩,
    ?_, ?_⟩
  · simp
  · simp [durable, ht, absorb, Durable.attempt, ← hm, ← hm']

/-- Any number of them: what crashes leave behind is what a fleet can leave behind. -/
theorem runs_crashed (store : HistoryStore α) (world : σ) (attempts : List (Attempt σ)) :
    ∃ as s, runs (next w) (init store world) as = some s ∧ s.jobs wid = none ∧
      s.durable wid = crashed (w wid) wid store world attempts := by
  suffices h : ∀ s : Fleet σ ε α S, s.jobs wid = none → ∃ as s', runs (next w) s as = some s' ∧
      s'.jobs wid = none ∧ s'.durable wid = attempts.foldl (Durable.attempt (w wid) wid) (s.durable wid)
    from h (init store world) rfl
  induction attempts with
  | nil => exact fun s hnone => ⟨[], s, rfl, hnone, rfl⟩
  | cons a attempts ih =>
    intro s hnone
    obtain ⟨as, s₁, has, hnone₁, hd₁⟩ := runs_attempt (w := w) hnone a
    obtain ⟨bs, s₂, hbs, hnone₂, hd₂⟩ := ih s₁ hnone₁
    refine ⟨as ++ bs, s₂, runs_append_iff.mpr ⟨s₁, has, hbs⟩, hnone₂, ?_⟩
    rw [hd₂, hd₁, List.foldl_cons]

end Attempts

/-- `order-1` is charged and shipped, every other order is only charged. -/
def orders (wid : String) : Script ℕ Empty ℕ :=
  if wid = "order-1" then
    .step "charge" (fun n => (n, n + 1)) fun a => .step "ship" (fun n => (n, n + 1)) fun b => .ret (.ok (a + b))
  else .step "charge" (fun n => (n, n + 1)) fun a => .ret (.ok a)

/-- Two orders are charged in turn, the first one is cut before its save and charged again. -/
theorem fleet_safe_orders :
    ∃ s, runs (next (bodies orders)) (init .new 100 : Scripts ℕ Empty ℕ)
        [.run "order-1" ⟨"", 0⟩, .run "order-2" ⟨"", 0⟩, .small "order-1", .small "order-1",
          .small "order-2", .small "order-2", .small "order-2", .cut "order-1",
          .run "order-1" ⟨"", 0⟩, .small "order-1", .small "order-1", .small "order-1"] = some s ∧
      s.store.load "order-1" = [⟨0, "charge", 102⟩] ∧ s.store.load "order-2" = [⟨0, "charge", 101⟩] ∧
      (s.invoked "order-1").count 0 = 1 + (s.cuts "order-1").count 0 := by
  obtain ⟨s, hs, h₁, h₂⟩ : ∃ s, runs (next (bodies orders)) (init .new 100 : Scripts ℕ Empty ℕ)
      [.run "order-1" ⟨"", 0⟩, .run "order-2" ⟨"", 0⟩, .small "order-1", .small "order-1",
        .small "order-2", .small "order-2", .small "order-2", .cut "order-1",
        .run "order-1" ⟨"", 0⟩, .small "order-1", .small "order-1", .small "order-1"] = some s ∧
      s.store.load "order-1" = [⟨0, "charge", 102⟩] ∧ s.store.load "order-2" = [⟨0, "charge", 101⟩] :=
    ⟨_, rfl, rfl, rfl⟩
  obtain ⟨-, -, hcount, -⟩ := fleet_safe orders .new (fun _ => rfl) 100 _ s hs "order-1"
  refine ⟨s, hs, h₁, h₂, hcount 0 ?_⟩
  rw [h₁]
  decide

/-! ## Progress -/

/-- What is left of a script after one more step. -/
inductive Sub : Script σ ε α → Script σ ε α → Prop where
  | mk (stepId : String) (f : σ → α × σ) (k : α → Script σ ε α) (v : α) : Sub (k v) (.step stepId f k)

theorem sub_wf : WellFounded (Sub : Script σ ε α → Script σ ε α → Prop) := by
  constructor
  intro v
  induction v with
  | ret reply =>
    constructor
    rintro u ⟨⟩
  | step stepId f k ih =>
    constructor
    rintro u ⟨⟩
    exact ih _

/-- How many small steps are left before the next save, when `len` events are stored. -/
def stage (len : ℕ) : Phase σ ε α (Script σ ε α ⊕ WorkflowError ε) → ℕ
  | .body ctx (.inl _) => 2 + (len - ctx.cursor)
  | .body _ (.inr _) => 3 + len
  | .closure _ _ _ _ => 1
  | .save _ _ _ _ => 0
  | .returned _ => 0

/-- How far the run of `wid` is from its end: what is left of the script, and the stage. -/
structure Rank (w : String → Script σ ε α) (wid : String) (s : Scripts σ ε α)
    (x : Script σ ε α × ℕ) : Prop where
  safe : ∀ id, Safe (w id) s id
  left : (w wid).Trace 0 (s.store.load wid) x.1
  own : x.1.OwnErrors (· ≠ .replay)
  stage : ∃ job, s.jobs wid = some job ∧ stage (s.store.load wid).length job.phase = x.2

/-- The order in which the rank goes down. -/
abbrev Nearer : Script σ ε α × ℕ → Script σ ε α × ℕ → Prop := Prod.Lex Sub (· < ·)

section Nearer

variable {v left : Script σ ε α} {store : HistoryStore α} {invoked cuts : List ℕ}
  {m : Machine σ ε α (Script σ ε α ⊕ WorkflowError ε)}

/-- The machine, one small step on, has returned or is at a lower rank. -/
def Nears (v left : Script σ ε α) (wid : String)
    (m : Machine σ ε α (Script σ ε α ⊕ WorkflowError ε)) : Prop :=
  (∃ reply, (m.micro v.toWorkflow wid).phase = .returned reply) ∨
    ∃ left', v.Trace 0 ((m.micro v.toWorkflow wid).store.load wid) left' ∧
      left'.OwnErrors (· ≠ .replay) ∧
      Nearer (left', stage ((m.micro v.toWorkflow wid).store.load wid).length
        (m.micro v.toWorkflow wid).phase) (left, stage (m.store.load wid).length m.phase)

/-- A small step that saves nothing. -/
theorem Nears.same (htrace : v.Trace 0 (m.store.load wid) left) (hown : left.OwnErrors (· ≠ .replay))
    {n : Machine σ ε α (Script σ ε α ⊕ WorkflowError ε)} (hmicro : m.micro v.toWorkflow wid = n)
    (hstore : n.store = m.store)
    (hlt : stage (m.store.load wid).length n.phase < stage (m.store.load wid).length m.phase) :
    Nears v left wid m := by
  refine Or.inr ⟨left, ?_, hown, ?_⟩
  · rw [hmicro, hstore]
    exact htrace
  · rw [hmicro, hstore]
    exact Prod.Lex.right _ hlt

theorem nears_body (hm : Following v wid store invoked cuts m)
    (htrace : v.Trace 0 (m.store.load wid) left) (hown : left.OwnErrors (· ≠ .replay))
    {ctx : WorkflowContext α} {st : Script σ ε α} (hp : m.phase = .body ctx (.inl st)) :
    Nears v left wid m := by
  have hphase := hm.phase
  rw [hp] at hphase
  obtain ⟨i, hi, rfl, hf⟩ := hphase
  cases st with
  | ret reply =>
    obtain rfl := left_of_ret htrace hi hf
    have hne : reply ≠ .error .replay := by
      rintro rfl
      exact hown rfl
    have hs : v.toWorkflow.next (.inl (.ret reply)) = .ret reply := rfl
    exact Or.inl ⟨reply, by simp only [Machine.micro, hp, hs]⟩
  | step stepId g k =>
    obtain ⟨f, j, hs⟩ : ∃ f j, v.toWorkflow.next (.inl (.step stepId g k)) = .step stepId f j :=
      ⟨_, _, rfl⟩
    rcases hi.lt_or_eq with hlt | rfl
    · -- the recorded event is served
      obtain ⟨t, g', k', ht, hn⟩ := Propagating.feed_prefix (htrace.feed v) hlt
      obtain rfl := Option.some.inj (ht.symm.trans hf)
      have hid : (m.store.load wid)[i].stepId = stepId := by cases hn; rfl
      have hev : (⟨wid, m.store.load wid, i⟩ : WorkflowContext α).history[i]? =
          some (m.store.load wid)[i] := List.getElem?_eq_getElem hlt
      have hserve : _ = some ((.ok (m.store.load wid)[i].result : Reply ε α), _) :=
        WorkflowContext.serve_match hev
      rw [hid] at hserve
      obtain ⟨_, j', hs', -, hk, -⟩ : ∃ f' j', v.toWorkflow.next (.inl (.step stepId g k)) =
          .step stepId f' j' ∧ True ∧ (∀ u, j' (.ok u) = .inl (k u)) ∧ True :=
        ⟨_, _, rfl, trivial, fun _ => rfl, trivial⟩
      refine .same htrace hown (n := { m with
        phase := .body ⟨wid, m.store.load wid, i + 1⟩ (.inl (k (m.store.load wid)[i].result)) })
        ?_ rfl ?_
      · simp only [Machine.micro, hp, hs', hserve, hk]
      · rw [hp]
        simp only [stage]
        omega
    · -- the history is at its end
      have hserve : ((⟨wid, m.store.load wid, (m.store.load wid).length⟩ :
          WorkflowContext α).serve stepId : Option (Reply ε α × WorkflowContext α)) = none :=
        WorkflowContext.serve_eq_none_iff.mpr le_rfl
      refine .same htrace hown (n := { m with
        phase := .closure ⟨wid, m.store.load wid, (m.store.load wid).length⟩ stepId f j
        invoked := m.invoked ++ [(m.store.load wid).length] }) ?_ rfl ?_
      · simp only [Machine.micro, hp, hs, hserve]
      · rw [hp]
        simp only [stage]
        omega

theorem nears_save (hm : Following v wid store invoked cuts m)
    (htrace : v.Trace 0 (m.store.load wid) left) (hown : left.OwnErrors (· ≠ .replay))
    {ctx : WorkflowContext α} {stepId : String} {result : α}
    {k : Reply ε α → Script σ ε α ⊕ WorkflowError ε} (hp : m.phase = .save ctx stepId result k) :
    Nears v left wid m := by
  have hphase := hm.phase
  rw [hp] at hphase
  obtain ⟨rfl, left', f, hf, hs, world, hv⟩ := hphase
  obtain ⟨g, j, rfl, rfl, -, hk⟩ := Script.of_next_step hs
  obtain rfl : (g world).1 = result := Except.ok.inj hv
  obtain rfl : left = .step stepId g j := Option.some.inj ((htrace.feed v).symm.trans hf)
  have hsnoc := htrace.snoc world
  rw [Nat.zero_add] at hsnoc
  have hmicro : m.micro v.toWorkflow wid = { m with
      store := m.store.save wid
        (m.store.load wid ++ [⟨(m.store.load wid).length, stepId, (g world).1⟩])
      phase := .body ⟨wid, m.store.load wid ++ [⟨(m.store.load wid).length, stepId, (g world).1⟩],
        (m.store.load wid).length⟩ (.inr .replay) } := by
    simp only [Machine.micro, hp, hk]
    rfl
  refine Or.inr ⟨j (g world).1, ?_, hown _, ?_⟩
  · rw [hmicro, HistoryStore.load_save]
    exact hsnoc
  · exact Prod.Lex.left _ _ (.mk stepId g j _)

theorem nears (hm : Following v wid store invoked cuts m) (htrace : v.Trace 0 (m.store.load wid) left)
    (hown : left.OwnErrors (· ≠ .replay)) : Nears v left wid m := by
  have hphase := hm.phase
  cases hp : m.phase with
  | body ctx st =>
    rcases st with st | e
    · exact nears_body hm htrace hown hp
    · rw [hp] at hphase
      obtain rfl : e = .replay := hphase
      have hs : v.toWorkflow.next (.inr .replay) = .ret (.error .replay) := rfl
      refine .same htrace hown (n := { m with
        engine := { m.engine with replays := m.engine.replays + 1 }
        phase := .body (.new wid (m.store.load wid)) (.inl v) }) ?_ rfl ?_
      · simp only [Machine.micro, hp, hs]
        rfl
      · rw [hp]
        simp only [stage, WorkflowContext.new]
        omega
  | closure ctx stepId f k =>
    rw [hp] at hphase
    obtain ⟨rfl, left', hf, hs⟩ := hphase
    obtain ⟨g, j, rfl, rfl, -, -⟩ := Script.of_next_step hs
    refine .same htrace hown (n := { m with
      world := (g m.world).2
      phase := .save ⟨wid, m.store.load wid, (m.store.load wid).length⟩ stepId (g m.world).1 k })
      ?_ rfl ?_
    · simp only [Machine.micro, hp]
    · rw [hp]
      simp only [stage]
      omega
  | save ctx stepId result k => exact nears_save hm htrace hown hp
  | returned reply => exact Or.inl ⟨reply, by simp only [Machine.micro, hp]⟩

end Nearer

/-- A small step of the run itself. -/
theorem Rank.mine {x : Script σ ε α × ℕ} (h : Rank w wid s x)
    (hnext : next (bodies w) s (.small wid) = some s') :
    s'.Returned wid ∨ ∃ y, Nearer y x ∧ Rank w wid s' y := by
  have hsafe := safe_next h.safe hnext
  obtain ⟨job, hjob, hstage⟩ := h.stage
  obtain ⟨job', hjob', rfl⟩ := Option.map_eq_some_iff.mp hnext
  obtain rfl : job = job' := Option.some.inj (hjob.symm.trans hjob')
  have hfollow := (h.safe wid).following hjob
  rcases nears hfollow h.left h.own with ⟨reply, hr⟩ | ⟨left', htrace, hown, hlt⟩
  · left
    refine ⟨((s.machine wid job).micro (bodies w wid) wid).engine, reply, ?_⟩
    rw [← hr]
    exact Function.update_self ..
  · right
    refine ⟨(left', Fleet.stage (((s.machine wid job).micro (bodies w wid) wid).store.load wid).length
      ((s.machine wid job).micro (bodies w wid) wid).phase), ?_, hsafe, htrace, hown, _,
      Function.update_self .., rfl⟩
    have hpair : x = (x.1, Fleet.stage (s.store.load wid).length job.phase) := by rw [hstage]
    rw [hpair]
    exact hlt

/-- What the others do. -/
theorem Rank.others {x : Script σ ε α × ℕ} (h : Rank w wid s x) {a : FleetAct σ}
    (hsmall : a ≠ .small wid) (hcut : a ≠ .cut wid) (hnext : next (bodies w) s a = some s') :
    Rank w wid s' x := by
  have hsafe := safe_next h.safe hnext
  obtain ⟨job, hjob, hstage⟩ := h.stage
  have hkept : s'.store.load wid = s.store.load wid ∧ s'.jobs wid = s.jobs wid := by
    cases a with
    | run id engine =>
      simp only [next] at hnext
      split at hnext
      · next hnone =>
        obtain rfl := Option.some.inj hnext
        have hne : wid ≠ id := by
          rintro rfl
          rw [hjob] at hnone
          cases hnone
        exact ⟨rfl, Function.update_of_ne hne _ _⟩
      · cases hnext
    | small id =>
      obtain ⟨job', hjob', rfl⟩ := Option.map_eq_some_iff.mp hnext
      have hne : wid ≠ id := by
        rintro rfl
        exact hsmall rfl
      exact ⟨((h.safe id).following hjob').micro.other wid hne, Function.update_of_ne hne _ _⟩
    | cut id =>
      obtain ⟨job', hjob', rfl⟩ := Option.map_eq_some_iff.mp hnext
      have hne : wid ≠ id := by
        rintro rfl
        exact hcut rfl
      exact ⟨rfl, Function.update_of_ne hne _ _⟩
    | outside change =>
      obtain rfl := Option.some.inj hnext
      exact ⟨rfl, rfl⟩
  obtain ⟨hload, hjobs⟩ := hkept
  refine ⟨hsafe, ?_, h.own, job, hjobs.trans hjob, ?_⟩
  · rw [hload]
    exact h.left
  · rw [hload]
    exact hstage

/-- **Progress**: in a run without end, whatever the other runs and the world do, a run that is not
cut and takes small steps again and again returns. -/
theorem fleet_progress (w : String → Script σ ε α) (wid : String)
    (hown : (w wid).OwnErrors (· ≠ .replay)) (r : Endless (next (bodies w)))
    (store : HistoryStore α) (hempty : ∀ id, store.load id = []) (world : σ)
    (hinit : r.states 0 = init store world) (n : ℕ) (hjob : (r.states n).jobs wid ≠ none)
    (hcut : ∀ m, n ≤ m → r.acts m ≠ .cut wid) (hfair : ∀ m, ∃ k, m ≤ k ∧ r.acts k = .small wid) :
    ∃ m, n ≤ m ∧ (r.states m).Returned wid := by
  have hsafe : ∀ id, Safe (w id) (r.states n) id := by
    refine r.invariant (P := fun s => ∀ id, Safe (w id) s id) (fun _ _ _ hs h => safe_next hs h)
      (Nat.zero_le n) ?_
    rw [hinit]
    exact safe_init w hempty world
  obtain ⟨left, htrace⟩ := (hsafe wid).trace
  obtain ⟨job, hj⟩ := Option.ne_none_iff_exists'.mp hjob
  have hrank : Rank w wid (r.states n) (left, stage ((r.states n).store.load wid).length job.phase) :=
    ⟨hsafe, htrace, htrace.ownErrors hown, job, hj, rfl⟩
  refine r.eventually (WellFounded.prod_lex sub_wf wellFounded_lt) (R := Rank w wid)
    (M := (· = .small wid)) (O := fun a => a ≠ .small wid ∧ a ≠ .cut wid)
    (G := fun s => s.Returned wid) ?_ ?_ hrank ?_ hfair
  · rintro s a s' x hx rfl hnext
    exact hx.mine hnext
  · rintro s a s' x hx ⟨hsmall, hcut⟩ hnext
    exact hx.others hsmall hcut hnext
  · intro m hm
    by_cases ha : r.acts m = .small wid
    · exact Or.inl ha
    · exact Or.inr ⟨ha, hcut m hm⟩

/-- `order-1` is started. Then again and again `order-2` is started and cut before its save, the world
changes in between, and `order-1` takes a small step. -/
def busyActs : ℕ → FleetAct ℕ
  | 0 => .run "order-1" ⟨"", 0⟩
  | n + 1 =>
    match n % 6 with
    | 0 => .run "order-2" ⟨"", 0⟩
    | 1 => .small "order-2"
    | 2 => .small "order-2"
    | 3 => .outside (· + 5)
    | 4 => .cut "order-2"
    | _ => .small "order-1"

/-- Which runs are in progress after the first `n` actions. -/
def Busy : ℕ → Scripts ℕ Empty ℕ → Prop
  | 0, s => s.jobs "order-1" = none ∧ s.jobs "order-2" = none
  | n + 1, s => s.jobs "order-1" ≠ none ∧ (s.jobs "order-2" = none ↔ n % 6 = 0 ∨ n % 6 = 5)

section Possible

variable {s : Scripts ℕ Empty ℕ} {id : String}

theorem next_run (h : s.jobs id = none) (engine : Engine) :
    ∃ s', next (bodies orders) s (.run id engine) = some s' ∧ s'.jobs id ≠ none ∧
      ∀ other, other ≠ id → s'.jobs other = s.jobs other := by
  refine ⟨_, by simp only [next, h]; rfl, ?_, fun other hne => Function.update_of_ne hne _ _⟩
  simp

theorem next_small (h : s.jobs id ≠ none) :
    ∃ s', next (bodies orders) s (.small id) = some s' ∧ s'.jobs id ≠ none ∧
      ∀ other, other ≠ id → s'.jobs other = s.jobs other := by
  obtain ⟨job, hjob⟩ := Option.ne_none_iff_exists'.mp h
  refine ⟨_, by simp only [next, hjob, Option.map_some]; rfl, ?_,
    fun other hne => Function.update_of_ne hne _ _⟩
  simp [absorb]

theorem next_cut (h : s.jobs id ≠ none) :
    ∃ s', next (bodies orders) s (.cut id) = some s' ∧ s'.jobs id = none ∧
      ∀ other, other ≠ id → s'.jobs other = s.jobs other := by
  obtain ⟨job, hjob⟩ := Option.ne_none_iff_exists'.mp h
  refine ⟨_, by simp only [next, hjob, Option.map_some]; rfl, ?_,
    fun other hne => Function.update_of_ne hne _ _⟩
  simp

end Possible

theorem Busy.next {n : ℕ} {s : Scripts ℕ Empty ℕ} (h : Busy n s) :
    ∃ s', Fleet.next (bodies orders) s (busyActs n) = some s' ∧ Busy (n + 1) s' := by
  cases n with
  | zero =>
    obtain ⟨s', hnext, hfirst, hother⟩ := next_run h.1 ⟨"", 0⟩
    refine ⟨s', hnext, hfirst, ?_⟩
    rw [hother "order-2" (by decide), h.2]
    decide
  | succ n =>
    obtain ⟨hfirst, hsecond⟩ := h
    have hturn : n % 6 = 0 ∨ n % 6 = 1 ∨ n % 6 = 2 ∨ n % 6 = 3 ∨ n % 6 = 4 ∨ n % 6 = 5 := by omega
    simp only [busyActs]
    rcases hturn with hn | hn | hn | hn | hn | hn
    · obtain ⟨s', hnext, hjob, hother⟩ := next_run (hsecond.mpr (Or.inl hn)) ⟨"", 0⟩
      simp only [hn]
      exact ⟨s', hnext, hother "order-1" (by decide) ▸ hfirst, iff_of_false hjob (by omega)⟩
    · obtain ⟨s', hnext, hjob, hother⟩ := next_small fun hnone => by have := hsecond.mp hnone; omega
      simp only [hn]
      exact ⟨s', hnext, hother "order-1" (by decide) ▸ hfirst, iff_of_false hjob (by omega)⟩
    · obtain ⟨s', hnext, hjob, hother⟩ := next_small fun hnone => by have := hsecond.mp hnone; omega
      simp only [hn]
      exact ⟨s', hnext, hother "order-1" (by decide) ▸ hfirst, iff_of_false hjob (by omega)⟩
    · simp only [hn]
      exact ⟨_, rfl, hfirst, hsecond.trans (by omega)⟩
    · obtain ⟨s', hnext, hjob, hother⟩ := next_cut fun hnone => by have := hsecond.mp hnone; omega
      simp only [hn]
      exact ⟨s', hnext, hother "order-1" (by decide) ▸ hfirst, iff_of_true hjob (by omega)⟩
    · obtain ⟨s', hnext, hjob, hother⟩ := next_small hfirst
      simp only [hn]
      refine ⟨s', hnext, hjob, ?_⟩
      rw [hother "order-2" (by decide)]
      exact hsecond.trans (by omega)

def busyOrders : Endless (next (bodies orders)) :=
  .of busyActs (init .new 100) Busy ⟨rfl, rfl⟩ fun _ _ => Busy.next

/-- `order-1` returns, although `order-2` never gets to its save and the world never rests. -/
theorem fleet_progress_busy :
    (busyOrders.states 6).cuts "order-2" = [0] ∧ (busyOrders.states 12).cuts "order-2" = [0, 0] ∧
      ∃ m, 1 ≤ m ∧ (busyOrders.states m).Returned "order-1" := by
  refine ⟨rfl, rfl, ?_⟩
  refine fleet_progress orders "order-1" (fun _ _ => trivial) busyOrders .new (fun _ => rfl) 100 rfl 1
    (by simp [busyOrders, Endless.of, next, busyActs, init]) ?_ fun m => ⟨6 * m + 6, by omega, ?_⟩
  · intro m hm
    cases m with
    | zero => cases hm
    | succ m =>
      show busyActs (m + 1) ≠ _
      simp only [busyActs]
      split <;> simp
  · show busyActs (6 * m + 5 + 1) = _
    have hturn : (6 * m + 5) % 6 = 5 := by omega
    simp only [busyActs, hturn]

end Fleet

end DurableExecution
