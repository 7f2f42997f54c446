import DurableExecution.Engine.Upgrade
import DurableExecution.Engine.Proofs.AccountingProofs
import DurableExecution.Engine.Proofs.CrashProofs

/-!
# Proofs: new versions of a workflow

Crashes can leave every history that is the beginning of a straight-through execution, since the
world may change between two attempts. So a new version takes over whatever the old one leaves exactly
when it can be fed each of these histories, and that is what `ExtendedBy` says step by step.
-/

namespace DurableExecution

variable {σ ε α : Type} {w w' : Script σ ε α} {wid : String}

/-! ## What the new version can be fed -/

/-- A new version that extends the old one follows every history of the old one. -/
theorem Script.ExtendedBy.feed (he : w.ExtendedBy w') (u : Script σ ε α) {n : ℕ}
    {h : List (HistoryEvent α)} {left : Script σ ε α} (ht : w.Trace n h left) :
    ∃ left', u.body.feed w' h = some left' := by
  induction ht generalizing w' with
  | nil w n => exact ⟨w', rfl⟩
  | @cons stepId f k n h left world ht ih =>
    cases he with
    | step hk =>
      obtain ⟨left', hf⟩ := ih (hk world)
      exact ⟨left', by simpa [Propagating.feed, Script.body, Script.next] using hf⟩

/-- A new version that follows every history of the old one extends it. -/
theorem Script.extendedBy_of_feed [Nonempty σ] (u : Script σ ε α) (n : ℕ)
    (hall : ∀ h left, w.Trace n h left → ∃ left', u.body.feed w' h = some left') :
    w.ExtendedBy w' := by
  induction w generalizing w' n with
  | ret reply => exact .ret reply w'
  | step stepId f k ih =>
    -- the history with one event shows what the new version asks for
    obtain ⟨world⟩ := ‹Nonempty σ›
    obtain ⟨left', hf⟩ := hall _ _ (.cons world (.nil _ _))
    cases w' with
    | ret reply => simp [Propagating.feed, Script.body, Script.next] at hf
    | step stepId' f' k' =>
      have hid : stepId = stepId' := by
        by_contra hne
        simp [Propagating.feed, Script.body, Script.next, hne] at hf
      subst hid
      refine .step fun world => ih _ (n + 1) fun h left ht => ?_
      obtain ⟨left', hf⟩ := hall _ _ (.cons world ht)
      exact ⟨left', by simpa [Propagating.feed, Script.body, Script.next] using hf⟩

/-! ## What crashes can leave -/

open Steps in
/-- Two attempts that are cut short record the next step, with the result that its step function
returns in the world of choice. -/
theorem Durable.records {d : Durable σ α} {stepId : String} {f : σ → α × σ} {k : α → Script σ ε α}
    (hf : w.feed (d.store.load wid) = some (.step stepId f k)) (world : σ) :
    ∃ attempts : List (Attempt σ),
      (attempts.foldl (Durable.attempt w.toWorkflow wid) d).store.load wid =
        d.store.load wid ++ [⟨(d.store.load wid).length, stepId, (f world).1⟩] := by
  have he : (⟨wid, 0⟩ : Engine).wid = wid := rfl
  have hv : (fun world => (Except.ok (f world).1, (f world).2) : StepFn σ ε α) world =
      (.ok (f world).1, (f world).2) := rfl
  have hx := executes_recorded .rust d.store he hf rfl hv
  obtain ⟨s, ⟨n, hn⟩, -⟩ := micro_of_executes wid hx []
  refine ⟨[⟨⟨wid, 0⟩, 0, fun _ => world⟩, ⟨⟨wid, 0⟩, n, id⟩], ?_⟩
  show ((Machine.micro w.toWorkflow wid)^[n] _).store.load wid = _
  exact (congrArg (fun m => m.store.load wid) hn).trans (HistoryStore.load_save _ _ _)

/-- **Crashes can leave every beginning of a straight-through execution.** -/
theorem Script.Trace.crashed {cur left : Script σ ε α} {n : ℕ} {h : List (HistoryEvent α)}
    (ht : cur.Trace n h left) {d : Durable σ α} (hf : w.feed (d.store.load wid) = some cur)
    (hn : n = (d.store.load wid).length) :
    ∃ attempts : List (Attempt σ),
      (attempts.foldl (Durable.attempt w.toWorkflow wid) d).store.load wid = d.store.load wid ++ h := by
  induction ht generalizing d with
  | nil cur n => exact ⟨[], (List.append_nil _).symm⟩
  | @cons stepId f k n h left world ht ih =>
    subst hn
    obtain ⟨as, has⟩ := Durable.records hf world
    have hf' := Propagating.feed_snoc hf rfl (d.store.load wid).length (f world).1
    rw [← has] at hf'
    have hlen := congrArg List.length has
    rw [List.length_append, List.length_singleton] at hlen
    obtain ⟨bs, hbs⟩ := ih hf' hlen.symm
    refine ⟨as ++ bs, ?_⟩
    rw [List.foldl_append, hbs, has, List.append_assoc, List.singleton_append]

/-! ## What the run of the new version does -/

theorem recordingRounds_ne_nil (seen new : List (HistoryEvent α)) : recordingRounds ε seen new ≠ [] := by
  cases new <;> simp [recordingRounds]

/-- The last execution of a run asks for everything that is recorded. -/
theorem lastIds_recordingRounds (seen new : List (HistoryEvent α)) :
    ((recordingRounds ε seen new).getLast?.getD []).map (·.stepId) = (seen ++ new).map (·.stepId) := by
  induction new generalizing seen with
  | nil => simp [recordingRounds]
  | cons ev new ih =>
    have hrest := ih (seen ++ [ev])
    obtain ⟨last, hlast⟩ := Option.ne_none_iff_exists'.mp
      (mt List.getLast?_eq_none_iff.mp (recordingRounds_ne_nil (ε := ε) (seen ++ [ev]) new))
    rw [hlast, Option.getD_some, List.append_assoc, List.singleton_append] at hrest
    rw [recordingRounds, List.getLast?_cons, hlast, Option.getD_some, Option.getD_some, hrest]

/-- A run on a history that the body can be fed takes it over. -/
theorem Completed.takesOver {left : Script σ ε α} {engine : Engine} {store : HistoryStore α}
    {o : Outcome σ ε α} {new : List (HistoryEvent α)} (hc : Completed left wid engine store o new) :
    TakesOver wid store o := by
  refine ⟨?_, ?_, ?_⟩
  · rw [Outcome.lastIds, hc.executions, lastIds_recordingRounds, hc.load]
  · rw [hc.load]
    exact List.prefix_append _ _
  · have happend := List.range'_append_1 (s := 0) (m := (store.load wid).length)
      (n := new.length)
    rw [Nat.zero_add] at happend
    rw [Outcome.invoked, hc.executions, invoked_recordingRounds, hc.load, List.length_append,
      List.range_eq_range', List.range_eq_range', happend]

theorem PartsWith.not_takesOver {store : HistoryStore α} {world : σ} {o : Outcome σ ε α}
    (h : PartsWith wid store world o) : ¬ TakesOver wid store o := by
  intro htake
  obtain ⟨i, hi, hearly | ⟨stepId, hne, hids, -⟩⟩ := h.stops
  · -- the run has not asked for the rest
    have hlen := congrArg List.length (hearly.symm.trans htake.asked)
    rw [h.sameStore] at hlen
    simp at hlen
    omega
  · -- the run has asked for another id
    have hith := congrArg (·[i]?) (hids.symm.trans htake.asked)
    rw [h.sameStore] at hith
    simp [hi, Nat.min_eq_left hi.le] at hith
    exact hne hith

/-- A run takes over the history it finds, if the body can be fed it, or parts with it. -/
theorem Script.takesOver_or_partsWith (hown : w.OwnErrors (· ≠ .replay)) (wid : String)
    (engine : Engine) (store : HistoryStore α) (world : σ) :
    ∃ o, Runs w.toWorkflow .rust wid engine store world o ∧
      ((∃ left, w.feed (store.load wid) = some left) ∧ TakesOver wid store o ∨
        PartsWith wid store world o) := by
  have he : ({ engine with wid } : Engine).wid = wid := rfl
  rcases w.body.feed_cases w.body.start (store.load wid) with
    ⟨left, hf⟩ | ⟨i, left, hi, hf, ⟨reply, hs⟩ | ⟨stepId, f, k, hs, hid⟩⟩
  · obtain ⟨o, new, ho, hc⟩ := completes left (hown.feed w.body rfl hf) he store world hf
    exact ⟨o, ho, Or.inl ⟨⟨left, hf⟩, hc.takesOver⟩⟩
  · have hx := executes_returned .rust { engine with wid } wid store world hi.le hf hs
    obtain rfl := Script.eq_ret_of_next hs
    have hne : reply ≠ .error .replay := (hown.feed w.body rfl hf).ret_ne
    refine ⟨_, loops_iff.mpr ⟨_, hx, Or.inr ⟨hne, rfl⟩⟩, Or.inr ⟨rfl, rfl, ?_, i, hi, Or.inl ?_⟩⟩
    · simp [Outcome.invoked, invokedPositions]
    · simp [Outcome.lastIds]
  · have hx := executes_mismatch .rust { engine with wid } wid store world hi hf hs hid
    refine ⟨_, loops_iff.mpr ⟨_, hx, Or.inr ⟨by simp, rfl⟩⟩,
      Or.inr ⟨rfl, rfl, ?_, i, hi, Or.inr ⟨stepId, hid.symm, ?_, rfl⟩⟩⟩
    · simp [Outcome.invoked, invokedPositions]
    · simp [Outcome.lastIds]

/-- A body that takes over the history can be fed it. -/
theorem Script.feed_of_takesOver {engine : Engine} {store : HistoryStore α} {world : σ}
    {o : Outcome σ ε α} (hown : w.OwnErrors (· ≠ .replay))
    (ho : Runs w.toWorkflow .rust wid engine store world o) (htake : TakesOver wid store o) :
    ∃ left, w.feed (store.load wid) = some left := by
  obtain ⟨o', ho', ⟨hfed, -⟩ | hparts⟩ := w.takesOver_or_partsWith hown wid engine store world
  · exact hfed
  · obtain rfl := ho.unique ho'
    exact absurd htake hparts.not_takesOver

/-- **A new version takes over whatever the old version can leave exactly when it extends it.** What
it does not take over it parts with, and does nothing. -/
theorem upgrade_iff (w w' : Script σ ε α) (hown : w'.OwnErrors (· ≠ .replay)) (wid : String)
    (store : HistoryStore α) (hempty : store.load wid = []) (world : σ) :
    ((∀ (attempts : List (Attempt σ)) (engine : Engine), ∃ o,
      Runs w'.toWorkflow .rust wid engine (crashed w.toWorkflow wid store world attempts).store
        (crashed w.toWorkflow wid store world attempts).world o ∧
      TakesOver wid (crashed w.toWorkflow wid store world attempts).store o) ↔ w.ExtendedBy w') ∧
    ∀ (attempts : List (Attempt σ)) (engine : Engine), ∃ o,
      Runs w'.toWorkflow .rust wid engine (crashed w.toWorkflow wid store world attempts).store
        (crashed w.toWorkflow wid store world attempts).world o ∧
      (TakesOver wid (crashed w.toWorkflow wid store world attempts).store o ∨
        PartsWith wid (crashed w.toWorkflow wid store world attempts).store
          (crashed w.toWorkflow wid store world attempts).world o) := by
  refine ⟨⟨?_, ?_⟩, ?_⟩
  · intro hall
    have : Nonempty σ := ⟨world⟩
    refine Script.extendedBy_of_feed w' 0 fun h left ht => ?_
    have hf : w.feed ((⟨store, world, [], []⟩ : Durable σ α).store.load wid) = some w := by
      rw [hempty]
      rfl
    obtain ⟨attempts, hleft⟩ := ht.crashed hf (by rw [hempty]; rfl)
    rw [hempty, List.nil_append] at hleft
    obtain ⟨o, ho, htake⟩ := hall attempts ⟨wid, 0⟩
    have hfed := Script.feed_of_takesOver hown ho htake
    rwa [crashed, hleft] at hfed
  · intro hext attempts engine
    obtain ⟨left, ht⟩ := (left_crashed (w := w) hempty world attempts).trace
    obtain ⟨left', hf⟩ := hext.feed w' ht
    have he : ({ engine with wid } : Engine).wid = wid := rfl
    obtain ⟨o, new, ho, hc⟩ := completes left' (hown.feed w'.body rfl hf) he _
      (crashed w.toWorkflow wid store world attempts).world hf
    exact ⟨o, ho, hc.takesOver⟩
  · intro attempts engine
    obtain ⟨o, ho, hcases⟩ := w'.takesOver_or_partsWith hown wid engine
      (crashed w.toWorkflow wid store world attempts).store
      (crashed w.toWorkflow wid store world attempts).world
    exact ⟨o, ho, hcases.imp_left And.right⟩

/-- A version of the order workflow that ships after the charge. -/
def chargeAndShip : Script Unit Empty ℕ :=
  .step "charge" (fun world => (100, world)) fun a => .step "ship" (fun world => (1, world)) fun b =>
    .ret (.ok (a + b))

/-- A step may be added at the end: an order that was cut after its charge is shipped. None may be
taken away: some order parts with its history. -/
theorem upgrade_iff_ship :
    (∃ o, Runs chargeAndShip.toWorkflow .rust "order-1" ⟨"", 0⟩
        (crashed chargeOnly.toWorkflow "order-1" .new () [⟨⟨"", 0⟩, 3, id⟩]).store
        (crashed chargeOnly.toWorkflow "order-1" .new () [⟨⟨"", 0⟩, 3, id⟩]).world o ∧
      TakesOver "order-1" (crashed chargeOnly.toWorkflow "order-1" .new () [⟨⟨"", 0⟩, 3, id⟩]).store o) ∧
    ∃ attempts o, Runs chargeOnly.toWorkflow .rust "order-1" ⟨"", 0⟩
        (crashed chargeAndShip.toWorkflow "order-1" .new () attempts).store
        (crashed chargeAndShip.toWorkflow "order-1" .new () attempts).world o ∧
      PartsWith "order-1" (crashed chargeAndShip.toWorkflow "order-1" .new () attempts).store
        (crashed chargeAndShip.toWorkflow "order-1" .new () attempts).world o := by
  have hext : chargeOnly.ExtendedBy chargeAndShip := .step fun _ => .ret _ _
  refine ⟨(upgrade_iff chargeOnly chargeAndShip (fun _ _ => trivial) "order-1" .new rfl ()).1.mpr hext
    [⟨⟨"", 0⟩, 3, id⟩] ⟨"", 0⟩, ?_⟩
  obtain ⟨-, hcases⟩ := upgrade_iff chargeAndShip chargeOnly (fun _ => trivial) "order-1" .new rfl ()
  obtain ⟨o, ho, htake | hparts⟩ := hcases [⟨⟨"", 0⟩, 8, id⟩] ⟨"", 0⟩
  · -- two ids are recorded, and one of them is asked for
    obtain rfl := ho.unique ⟨4, rfl⟩
    cases htake.asked
  · exact ⟨_, o, ho, hparts⟩

end DurableExecution
