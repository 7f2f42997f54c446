import DurableExecution.Engine.Hosting
import DurableExecution.Engine.Overlap

/-!
# Proofs: executions that overlap

A save replaces the stored history by the copy of one execution. It appends to the log exactly when
nobody else has recorded anything that the copy lacks.
-/

namespace DurableExecution

namespace OverlapState

variable {α : Type} {s s' t : OverlapState α}

/-- What the actions do. All but the return of a closure leave the store as it is. -/
inductive Step (s : OverlapState α) : OverlapAct α → OverlapState α → Prop where
  | run {key : ℕ} {wid : String} : Step s (.run key wid) (s.put key (some (s.load wid)))
  | served {key since : ℕ} {stepId : String} {ctx ctx' : WorkflowContext α} {reply : Reply Empty α}
      (he : s.executions key = some ⟨ctx, none, since⟩)
      (hserve : ctx.serve stepId = some (reply, ctx')) :
      Step s (.step key stepId) (s.put key (some ⟨ctx', none, since⟩))
  | called {key since : ℕ} {stepId : String} {ctx : WorkflowContext α}
      (he : s.executions key = some ⟨ctx, none, since⟩) (hend : ctx.history.length ≤ ctx.cursor) :
      Step s (.step key stepId) (s.put key (some ⟨ctx, some stepId, since⟩))
  | done {key since : ℕ} {stepId : String} {ctx : WorkflowContext α} {result : α}
      (he : s.executions key = some ⟨ctx, some stepId, since⟩) :
      Step s (.done key result) (s.record key ⟨ctx, some stepId, since⟩ stepId result)
  | replay {key since : ℕ} {ctx : WorkflowContext α}
      (he : s.executions key = some ⟨ctx, none, since⟩) :
      Step s (.replay key) (s.put key (some (s.load ctx.wid)))
  | leave {key : ℕ} : Step s (.leave key) (s.put key none)

theorem step_of_next {a : OverlapAct α} (h : s.next a = some s') : s.Step a s' := by
  cases a with
  | run key wid =>
    simp only [next] at h
    split at h
    · obtain rfl := Option.some.inj h
      exact .run
    · cases h
  | step key stepId =>
    simp only [next] at h
    split at h
    · next ctx since he =>
      split at h
      · next reply ctx' hserve =>
        obtain rfl := Option.some.inj h
        exact .served he hserve
      · next hserve =>
        obtain rfl := Option.some.inj h
        exact .called he (WorkflowContext.serve_eq_none_iff.mp hserve)
    · cases h
  | done key result =>
    simp only [next] at h
    split at h
    · next ctx stepId since he =>
      obtain rfl := Option.some.inj h
      exact .done he
    · cases h
  | replay key =>
    simp only [next] at h
    split at h
    · next ctx since he =>
      obtain rfl := Option.some.inj h
      exact .replay he
    · cases h
  | leave key =>
    simp only [next] at h
    split at h
    · obtain rfl := Option.some.inj h
      exact .leave
    · cases h

/-- The store after a save: the copy of the execution and the new event. -/
theorem load_record (s : OverlapState α) (key : ℕ) (e : Ongoing α) (stepId : String) (v : α)
    (wid : String) : (s.record key e stepId v).store.load wid =
      if wid = e.ctx.wid then e.ctx.history ++ [⟨e.ctx.history.length, stepId, v⟩]
      else s.store.load wid := by
  show (s.store.save e.ctx.wid _).load wid = _
  split
  · next hw =>
    rw [hw, HistoryStore.load_save]
  · next hw => exact HistoryStore.load_save_of_ne _ hw _

/-- An execution after an action is one from before, or the one that has acted. -/
theorem executions_put {key key' : ℕ} {e : Option (Ongoing α)} {e' : Ongoing α}
    (h : (s.put key e).executions key' = some e') : e = some e' ∨ s.executions key' = some e' := by
  have h' : Function.update s.executions key e key' = some e' := h
  by_cases hk : key' = key
  · rw [hk, Function.update_self] at h'
    exact Or.inl h'
  · rw [Function.update_of_ne hk] at h'
    exact Or.inr h'

/-- How an execution that acts goes on: with the history it had, or with the event that it has just
saved. -/
structure Ongoing.Continues (s' : OverlapState α) (e e' : Ongoing α) : Prop where
  wid : e'.ctx.wid = e.ctx.wid
  since : e'.since = e.since
  history : e.ctx.history <+: e'.ctx.history
  stored : e'.ctx.history = e.ctx.history ∨ s'.store.load e'.ctx.wid = e'.ctx.history
  waiting : e'.waiting ≠ none → e'.ctx.history.length ≤ e'.ctx.cursor

theorem Step.clock {a : OverlapAct α} (h : s.Step a s') : s'.clock = s.clock + 1 := by
  cases h <;> rfl

/-- An execution after an action is one from before, or it has just loaded its history, or it goes on
from one that was there before. -/
theorem Step.execution {a : OverlapAct α} (h : s.Step a s') {key' : ℕ} {e' : Ongoing α}
    (he' : s'.executions key' = some e') : s.executions key' = some e' ∨ (∃ wid, e' = s.load wid) ∨
      ∃ key e, s.executions key = some e ∧ Ongoing.Continues s' e e' := by
  cases h with
  | run =>
    rcases executions_put he' with hnew | hold
    · exact Or.inr (Or.inl ⟨_, (Option.some.inj hnew).symm⟩)
    · exact Or.inl hold
  | @served key since stepId ctx ctx' reply he hserve =>
    rcases executions_put he' with hnew | hold
    · obtain rfl := Option.some.inj hnew
      obtain ⟨hwid, hhist⟩ := WorkflowContext.serve_frame hserve
      have hprefix : ctx.history <+: ctx'.history := hhist ▸ List.prefix_rfl
      exact Or.inr (Or.inr
        ⟨_, _, he, hwid, rfl, hprefix, Or.inl hhist, fun hw => absurd rfl hw⟩)
    · exact Or.inl hold
  | called he hend =>
    rcases executions_put he' with hnew | hold
    · obtain rfl := Option.some.inj hnew
      exact Or.inr (Or.inr ⟨_, _, he, rfl, rfl, List.prefix_rfl, Or.inl rfl, fun _ => hend⟩)
    · exact Or.inl hold
  | @done key since stepId ctx v he =>
    rcases executions_put he' with hnew | hold
    · obtain rfl := Option.some.inj hnew
      have hsaved : (s.record key ⟨ctx, some stepId, since⟩ stepId v).store.load ctx.wid =
          ctx.history ++ [⟨ctx.history.length, stepId, v⟩] :=
        (load_record ..).trans (if_pos rfl)
      exact Or.inr (Or.inr ⟨_, _, he, rfl, rfl, List.prefix_append _ _, Or.inr hsaved,
        fun hw => absurd rfl hw⟩)
    · exact Or.inl hold
  | replay he =>
    rcases executions_put he' with hnew | hold
    · exact Or.inr (Or.inl ⟨_, (Option.some.inj hnew).symm⟩)
    · exact Or.inl hold
  | leave =>
    rcases executions_put he' with hnew | hold
    · cases hnew
    · exact Or.inl hold

/-! ## The invariant -/

/-- What holds of an execution in progress as long as the log is only appended to. -/
structure Ongoing.Behind (s : OverlapState α) (e : Ongoing α) : Prop where
  since : e.since < s.clock
  history : e.ctx.history <+: s.store.load e.ctx.wid
  waiting : e.waiting ≠ none → e.ctx.history.length ≤ e.ctx.cursor

/-- Every copy of a history is a prefix of the stored one. -/
def Copies (s : OverlapState α) : Prop := ∀ key e, s.executions key = some e → Ongoing.Behind s e

theorem copies_init (store : HistoryStore α) : (init store).Copies := by
  intro key e he
  cases he

/-- An action that keeps the log keeps the invariant. -/
theorem Copies.next (hs : s.Copies) {a : OverlapAct α} (h : s.next a = some s')
    (hkept : ∀ wid, s.store.load wid <+: s'.store.load wid) : s'.Copies := by
  have hstep := step_of_next h
  have hclock := hstep.clock
  intro key' e' he'
  rcases hstep.execution he' with he | ⟨wid, rfl⟩ | ⟨key, e, he, hc⟩
  · have hb := hs _ _ he
    have hsince : e'.since < s'.clock := hclock ▸ Nat.lt_succ_of_lt hb.since
    exact ⟨hsince, hb.history.trans (hkept _), hb.waiting⟩
  · have hsince : s.clock < s'.clock := hclock ▸ Nat.lt_succ_self _
    exact ⟨hsince, hkept wid, fun hw => absurd rfl hw⟩
  · have hb := hs _ _ he
    have hsince : e'.since < s'.clock := by
      rw [hc.since, hclock]
      exact Nat.lt_succ_of_lt hb.since
    refine ⟨hsince, ?_, hc.waiting⟩
    rcases hc.stored with heq | heq
    · rw [heq, hc.wid]
      exact hb.history.trans (hkept _)
    · exact heq ▸ List.prefix_rfl

/-! ## One action -/

/-- A list between a list and its extension by one element is one of the two. -/
theorem eq_or_eq_of_prefix {β : Type} {h l : List β} {x : β} (hl : h <+: l) (hx : l <+: h ++ [x]) :
    l = h ∨ l = h ++ [x] := by
  rcases List.prefix_concat_iff.mp hx with heq | hh
  · exact Or.inr heq
  · exact Or.inl (hh.eq_of_length (Nat.le_antisymm hh.length_le hl.length_le))

/-- **An action only appends to the log exactly when** a closure that returns finds its own copy
stored. -/
theorem kept_next_iff (hs : s.Copies) {a : OverlapAct α} (h : s.next a = some s') :
    (∀ wid, s.store.load wid <+: s'.store.load wid) ↔ s.RecordsLatest a := by
  cases step_of_next h with
  | run => exact ⟨fun _ => trivial, fun _ wid => List.prefix_rfl⟩
  | served he hserve => exact ⟨fun _ => trivial, fun _ wid => List.prefix_rfl⟩
  | called he hend => exact ⟨fun _ => trivial, fun _ wid => List.prefix_rfl⟩
  | replay he => exact ⟨fun _ => trivial, fun _ wid => List.prefix_rfl⟩
  | leave => exact ⟨fun _ => trivial, fun _ wid => List.prefix_rfl⟩
  | @done key since stepId ctx v he =>
    constructor
    · intro hkept ctx' stepId' since' he'
      rw [he] at he'
      cases he'
      have hgrown := hkept ctx.wid
      rw [load_record, if_pos rfl] at hgrown
      exact eq_or_eq_of_prefix (hs _ _ he).history hgrown
    · intro hlatest wid
      rw [load_record]
      split
      · next hw =>
        rw [hw]
        rcases hlatest ctx stepId since he with heq | heq
        · exact heq ▸ List.prefix_append _ _
        · exact heq ▸ List.prefix_rfl
      · exact List.prefix_rfl

/-! ## Runs -/

/-- What has happened since `s`, as long as the log is only appended to. -/
structure Later (s t : OverlapState α) : Prop where
  copies : t.Copies
  clock : s.clock ≤ t.clock
  kept : ∀ wid, s.store.load wid <+: t.store.load wid
  loaded : ∀ key e, t.executions key = some e → s.clock ≤ e.since →
    s.store.load e.ctx.wid <+: e.ctx.history

theorem Later.refl (hs : s.Copies) : Later s s where
  copies := hs
  clock := Nat.le_refl _
  kept := fun _ => List.prefix_rfl
  loaded := by
    intro key e he hle
    have := (hs key e he).since
    omega

theorem Later.next (h : Later s t) {a : OverlapAct α} {t' : OverlapState α}
    (hC : t.RecordsLatest a) (hn : t.next a = some t') : Later s t' := by
  have hkept := (kept_next_iff h.copies hn).mpr hC
  have hstep := step_of_next hn
  refine ⟨h.copies.next hn hkept, ?_, fun wid => (h.kept wid).trans (hkept wid), ?_⟩
  · rw [hstep.clock]
    exact Nat.le_succ_of_le h.clock
  · intro key' e' he' hle
    rcases hstep.execution he' with he | ⟨wid, rfl⟩ | ⟨key, e, he, hc⟩
    · exact h.loaded _ _ he hle
    · exact h.kept wid
    · rw [hc.wid]
      exact (h.loaded key e he (hc.since ▸ hle)).trans hc.history

theorem Later.appendOnly (h : Later s t) : AppendOnly s t where
  kept := h.kept
  served := fun key e he hw hle =>
    Nat.le_trans (h.loaded key e he hle).length_le ((h.copies key e he).waiting hw)

/-- **The log is append-only in a run exactly when** every closure that returns finds the copy of
its own execution stored, or this copy and the very event that it records. -/
theorem appendOnly_iff_recordsLatest {start : HistoryStore α} {as : List (OverlapAct α)}
    {t : OverlapState α} (h : System.runs next (init start) as = some t) :
    System.Ordered next AppendOnly (init start) as ↔
      System.EachStep next RecordsLatest (init start) as := by
  constructor
  · exact System.eachStep_of_ordered (P := Copies)
      (fun _ _ _ hs hR hn => hs.next hn hR.kept)
      (fun _ _ _ hs hR hn => (kept_next_iff hs hn).mp hR.kept) h (copies_init start)
  · intro hC as₁ as₂ as₃ u v heq hu hv
    rw [heq] at hC
    have hcopies : (init start).Copies := copies_init start
    have hfront : System.EachStep next RecordsLatest (init start) as₁ :=
      System.EachStep.part (show System.EachStep next _ _ ([] ++ (as₁ ++ (as₂ ++ as₃))) from hC) rfl
    have hlater : Later (init start) u :=
      System.runs_invariant_of_eachStep (fun _ _ _ hs hc hn => Later.next hs hc hn) hu (.refl hcopies)
        hfront
    have hlater' : Later u v :=
      System.runs_invariant_of_eachStep (fun _ _ _ hs hc hn => Later.next hs hc hn) hv
        (.refl hlater.copies) (hC.part hu)
    exact hlater'.appendOnly

/-- Two executions of one workflow whose closures return the same value; one of them goes on. -/
def sameResult : List (OverlapAct ℕ) :=
  [.run 0 "w", .run 1 "w", .step 0 "a", .step 1 "a", .done 0 1, .done 1 1, .replay 1, .step 1 "a",
    .step 1 "b", .done 1 2]

/-- Nothing is lost: the second execution records the very event that the first one has recorded, and
has loaded it when it records the next one. -/
theorem appendOnly_iff_recordsLatest_same :
    System.Ordered next AppendOnly (init (.new : HistoryStore ℕ)) sameResult := by
  refine (appendOnly_iff_recordsLatest rfl).mpr ?_
  refine (System.eachStep_cons_iff rfl).mpr ⟨trivial, ?_⟩
  refine (System.eachStep_cons_iff rfl).mpr ⟨trivial, ?_⟩
  refine (System.eachStep_cons_iff rfl).mpr ⟨trivial, ?_⟩
  refine (System.eachStep_cons_iff rfl).mpr ⟨trivial, ?_⟩
  refine (System.eachStep_cons_iff rfl).mpr ⟨?first, ?_⟩
  case first =>
    intro ctx stepId since he
    cases he
    exact Or.inl rfl
  refine (System.eachStep_cons_iff rfl).mpr ⟨?same, ?_⟩
  case same =>
    intro ctx stepId since he
    cases he
    exact Or.inr rfl
  refine (System.eachStep_cons_iff rfl).mpr ⟨trivial, ?_⟩
  refine (System.eachStep_cons_iff rfl).mpr ⟨trivial, ?_⟩
  refine (System.eachStep_cons_iff rfl).mpr ⟨trivial, ?_⟩
  refine (System.eachStep_cons_iff rfl).mpr ⟨?loaded, System.eachStep_nil _ _⟩
  case loaded =>
    intro ctx stepId since he
    cases he
    exact Or.inl rfl

/-- Two executions of one workflow that load the empty history, and then each call its first step:
the closures return different values. -/
def twoEngines : List (OverlapAct ℕ) :=
  [.run 0 "w", .run 1 "w", .step 0 "a", .step 1 "a", .done 0 1, .done 1 2]

/-- The first of the two recorded events is overwritten. -/
theorem twoEngines_not_appendOnly :
    ¬ System.Ordered next AppendOnly (init (.new : HistoryStore ℕ)) twoEngines := by
  intro hall
  have hkept := (hall [.run 0 "w", .run 1 "w", .step 0 "a", .step 1 "a", .done 0 1] [.done 1 2] []
    _ _ rfl rfl rfl).kept "w"
  exact absurd hkept.eq_of_length (by decide)

/-! ## The runs of the Rust engine are such actions -/

/-- The execution with the key `key` stands in its body, next to the executions `others`. -/
def InBody (others : ℕ → Option (Ongoing α)) (key : ℕ) (_ : Engine) (store : HistoryStore α)
    (ctx : WorkflowContext α) (s : OverlapState α) : Prop :=
  s.store = store ∧ ∃ since, s.executions = Function.update others key (some ⟨ctx, none, since⟩)

/-- The run with the key `key` has ended. -/
def Left (others : ℕ → Option (Ongoing α)) (key : ℕ) (_ : Engine) (store : HistoryStore α)
    (s : OverlapState α) : Prop :=
  s.store = store ∧ s.executions = Function.update others key none

/-- In Rust a closure returns a value, so there are no failures. -/
theorem hosts (others : ℕ → Option (Ongoing α)) (key : ℕ) :
    Hosts Empty next .rust (InBody others key) (Left others key) where
  served := by
    rintro _ _ ctx s stepId reply ctx' ⟨rfl, since, he⟩ hserve
    refine ⟨[.step key stepId], s.put key (some ⟨ctx', none, since⟩), ?_, rfl, since, ?_⟩
    · simp [System.runs, next, he, hserve]
    · simp [put, he]
  failed := fun _ e => e.elim
  recorded := by
    rintro _ _ ctx s stepId v ⟨rfl, since, he⟩ hend
    refine ⟨[.step key stepId, .done key v],
      (s.put key (some ⟨ctx, some stepId, since⟩)).record key ⟨ctx, some stepId, since⟩ stepId v, ?_,
      rfl, since, ?_⟩
    · simp [System.runs, next, he, put, WorkflowContext.serve_eq_none_iff.mpr hend]
    · simp [record, put, he, Engine.target]
  replay := by
    rintro _ _ ctx s ⟨rfl, since, he⟩
    refine ⟨[.replay key], s.put key (some (s.load ctx.wid)), ?_, rfl, s.clock, ?_⟩
    · simp [System.runs, next, he]
    · simp [put, he, load]
  leave := by
    rintro _ _ ctx s ⟨rfl, since, he⟩
    refine ⟨[.leave key], s.put key none, ?_, rfl, ?_⟩
    · simp [System.runs, next, he]
    · simp [put, he]

/-- **A call of `run` in Rust is such actions**, and leaves the executions next to it as they
were. -/
theorem runs_of_run {σ S : Type} {w : Workflow σ Empty α S} {wid : String} {engine : Engine}
    {world : σ} {o : Outcome σ Empty α} {key : ℕ} (hkey : s.executions key = none)
    (h : Runs w .rust wid engine s.store world o) :
    System.Reaches next s fun s' => s'.store = o.store ∧ s'.executions = s.executions := by
  have hrun : s.next (.run key wid) = some (s.put key (some (s.load wid))) := by
    simp [next, hkey]
  have hbody : InBody s.executions key { engine with wid } s.store (.new wid (s.store.load wid))
      (s.put key (some (s.load wid))) := ⟨rfl, s.clock, rfl⟩
  refine System.Reaches.trans ⟨[.run key wid], _, System.runs_cons_iff.mpr ⟨_, hrun, rfl⟩, hbody⟩ ?_
  intro s' hs'
  obtain ⟨as, t, has, hstore, hleft⟩ := (hosts s.executions key).loops (runs_iff.mp h) hs'
  exact ⟨as, t, has, hstore, by rw [hleft, ← hkey, Function.update_eq_self]⟩

end OverlapState

end DurableExecution
