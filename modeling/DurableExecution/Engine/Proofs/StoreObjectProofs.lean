import DurableExecution.Engine.StoreObject
import DurableExecution.Engine.Proofs.CrashProofs

/-!
# Proofs: other stores

The context of a run always holds the history that is stored for its id, whatever the body does with
the replies it gets. So a run never saves anything but an append to it, and the machine on an object
that keeps appends follows the machine on the dictionary step by step.
-/

namespace DurableExecution

variable {σ ε α S T : Type} {object : StoreObject T α} {held : T → String → List (HistoryEvent α)}
  {Ok : T → Prop} {w : Workflow σ ε α S} {wid : String}

/-! ## The simulation -/

/-- The context that a phase works on. -/
def Phase.context : Phase σ ε α S → Option (WorkflowContext α)
  | .body ctx _ => some ctx
  | .closure ctx _ _ _ => some ctx
  | .save ctx _ _ _ => some ctx
  | .returned _ => none

/-- The machine on the object is where the machine on the dictionary is. -/
structure Follow (held : T → String → List (HistoryEvent α)) (Ok : T → Prop) (wid : String)
    (m : MachineOn T σ ε α S) (m' : Machine σ ε α S) : Prop where
  ok : Ok m.store
  held : held m.store = m'.store.load
  engine : m.engine = m'.engine
  world : m.world = m'.world
  phase : m.phase = m'.phase
  invoked : m.invoked = m'.invoked
  context : ∀ ctx, m'.phase.context = some ctx → ctx.wid = wid ∧ ctx.history = m'.store.load wid

variable {m : MachineOn T σ ε α S} {m' : Machine σ ε α S}

theorem Follow.start (hobject : object.Keeps held Ok) (w : Workflow σ ε α S) (wid : String)
    (engine : Engine) {s : T} (hs : Ok s) {store : HistoryStore α} (hsame : held s = store.load)
    (world : σ) :
    Follow held Ok wid (.start object w wid engine s world) (.start w wid engine store world) := by
  obtain ⟨hok, hheld⟩ := hobject.loaded s wid hs
  have hload : (object.load s wid).1 = store.load wid := by rw [hobject.load s wid hs, hsame]
  refine ⟨hok, hheld.trans hsame, rfl, rfl, ?_, rfl, ?_⟩
  · exact congrArg (fun h => Phase.body (.new wid h) w.start) hload
  · intro ctx hctx
    obtain rfl := Option.some.inj hctx
    exact ⟨rfl, rfl⟩

theorem HistoryStore.load_save_eq (store : HistoryStore α) (wid : String)
    (history : List (HistoryEvent α)) :
    (store.save wid history).load = Function.update store.load wid history := by
  funext id
  by_cases hid : id = wid
  · subst hid
    rw [load_save, Function.update_self]
  · rw [load_save_of_ne _ hid, Function.update_of_ne hid]

/-- **One small step.** -/
theorem Follow.micro (hobject : object.Keeps held Ok) (h : Follow held Ok wid m m') :
    Follow held Ok wid (m.micro object w wid) (m'.micro w wid) := by
  obtain ⟨engine, s, world, phase, invoked⟩ := m
  obtain ⟨engine', store, world', phase', invoked'⟩ := m'
  obtain ⟨hok, hheld, rfl, rfl, rfl, rfl, hctx⟩ := h
  cases phase with
  | body ctx st =>
    have hown := hctx ctx rfl
    cases hs : w.next st with
    | ret reply =>
      by_cases hr : reply = .error .replay
      · -- the history is loaded again
        subst hr
        obtain ⟨hok', hheld'⟩ := hobject.loaded s wid hok
        have hload : (object.load s wid).1 = store.load wid := by
          rw [hobject.load s wid hok]
          exact congrFun hheld wid
        simp only [MachineOn.micro, Machine.micro, hs]
        refine ⟨hok', hheld'.trans hheld, rfl, rfl, ?_, rfl, ?_⟩
        · exact congrArg (fun h => Phase.body (.new wid h) w.start) hload
        · intro c hc
          obtain rfl := Option.some.inj hc
          exact ⟨rfl, rfl⟩
      · have hon : MachineOn.micro object w wid ⟨engine, s, world, .body ctx st, invoked⟩ =
            ⟨engine, s, world, .returned reply, invoked⟩ := by
          simp only [MachineOn.micro, hs]
        have hin : Machine.micro w wid ⟨engine, store, world, .body ctx st, invoked⟩ =
            ⟨engine, store, world, .returned reply, invoked⟩ := by
          simp only [Machine.micro, hs]
        rw [hon, hin]
        exact ⟨hok, hheld, rfl, rfl, rfl, rfl, fun c hc => by cases hc⟩
    | step stepId f k =>
      cases hserve : (ctx.serve stepId : Option (Reply ε α × WorkflowContext α)) with
      | none =>
        simp only [MachineOn.micro, Machine.micro, hs, hserve]
        refine ⟨hok, hheld, rfl, rfl, rfl, rfl, ?_⟩
        intro c hc
        obtain rfl := Option.some.inj hc
        exact hown
      | some p =>
        obtain ⟨reply, ctx'⟩ := p
        obtain ⟨hwid, hhistory⟩ := WorkflowContext.serve_frame hserve
        simp only [MachineOn.micro, Machine.micro, hs, hserve]
        refine ⟨hok, hheld, rfl, rfl, rfl, rfl, ?_⟩
        intro c hc
        obtain rfl := Option.some.inj hc
        exact ⟨hwid.trans hown.1, hhistory.trans hown.2⟩
  | closure ctx stepId f k =>
    have hown := hctx ctx rfl
    obtain ⟨reply, world', hf⟩ : ∃ reply world', f world = (reply, world') := ⟨_, _, rfl⟩
    cases reply with
    | error e =>
      simp only [MachineOn.micro, Machine.micro, hf]
      refine ⟨hok, hheld, rfl, rfl, rfl, rfl, ?_⟩
      intro c hc
      obtain rfl := Option.some.inj hc
      exact hown
    | ok result =>
      simp only [MachineOn.micro, Machine.micro, hf]
      refine ⟨hok, hheld, rfl, rfl, rfl, rfl, ?_⟩
      intro c hc
      obtain rfl := Option.some.inj hc
      exact hown
  | save ctx stepId result k =>
    -- what is saved is what is stored, with one event more
    obtain ⟨hwid, hhistory⟩ := hctx ctx rfl
    obtain ⟨id, history, cursor⟩ := ctx
    obtain rfl : id = wid := hwid
    have hstored : history = held s id := by
      rw [hheld]
      exact hhistory
    subst hstored
    obtain ⟨hok', hheld'⟩ := hobject.append s id ⟨(held s id).length, stepId, result⟩ hok rfl
    have hsaved : ∀ h, (store.save id h).load = Function.update (held s) id h := by
      intro h
      rw [HistoryStore.load_save_eq, hheld]
    simp only [MachineOn.micro, Machine.micro, WorkflowContext.record, Engine.target]
    refine ⟨hok', hheld'.trans (hsaved _).symm, rfl, rfl, rfl, rfl, ?_⟩
    intro c hc
    obtain rfl := Option.some.inj hc
    exact ⟨rfl, (HistoryStore.load_save _ _ _).symm⟩
  | returned reply => exact ⟨hok, hheld, rfl, rfl, rfl, rfl, fun c hc => by cases hc⟩

theorem Follow.iterate (hobject : object.Keeps held Ok) (h : Follow held Ok wid m m') (n : ℕ) :
    Follow held Ok wid ((MachineOn.micro object w wid)^[n] m) ((Machine.micro w wid)^[n] m') := by
  induction n generalizing m m' with
  | zero => exact h
  | succ n ih => exact ih (h.micro hobject)

/-! ## Attempts -/

/-- The attempts on the object have left what the attempts on the dictionary have left. -/
structure SameLeft (held : T → String → List (HistoryEvent α)) (Ok : T → Prop) (d : DurableOn T σ)
    (d' : Durable σ α) : Prop where
  ok : Ok d.store
  held : held d.store = d'.store.load
  world : d.world = d'.world
  invoked : d.invoked = d'.invoked
  cuts : d.cuts = d'.cuts

theorem SameLeft.attempt (hobject : object.Keeps held Ok) {d : DurableOn T σ} {d' : Durable σ α}
    (h : SameLeft held Ok d d') (w : Workflow σ ε α S) (wid : String) (a : Attempt σ) :
    SameLeft held Ok (d.attempt object w wid a) (d'.attempt w wid a) := by
  obtain ⟨s, world, invoked, cuts⟩ := d
  obtain ⟨store, world', invoked', cuts'⟩ := d'
  obtain ⟨hok, hheld, rfl, rfl, rfl⟩ := h
  have hcut := (Follow.start hobject w wid a.engine hok hheld world).iterate hobject (w := w) a.cut
  refine ⟨hcut.ok, hcut.held, congrArg a.after hcut.world, congrArg (invoked ++ ·) hcut.invoked, ?_⟩
  exact congrArg (fun phase : Phase σ ε α S => cuts ++ phase.pending) hcut.phase

theorem sameLeft_crashed (hobject : object.Keeps held Ok) (w : Workflow σ ε α S) (wid : String) {s : T}
    (hs : Ok s) {store : HistoryStore α} (hsame : held s = store.load) (world : σ)
    (attempts : List (Attempt σ)) :
    SameLeft held Ok (crashedOn object w wid s world attempts) (crashed w wid store world attempts) := by
  suffices hall : ∀ (d : DurableOn T σ) (d' : Durable σ α), SameLeft held Ok d d' →
      SameLeft held Ok (attempts.foldl (DurableOn.attempt object w wid) d)
        (attempts.foldl (Durable.attempt w wid) d') from hall _ _ ⟨hs, hsame, rfl, rfl, rfl⟩
  induction attempts with
  | nil => exact fun _ _ h => h
  | cons a attempts ih => exact fun _ _ h => ih _ _ (h.attempt hobject w wid a)

/-- A run that starts on what the attempts have left follows the run on the dictionary. -/
theorem SameLeft.follow (hobject : object.Keeps held Ok) {d : DurableOn T σ} {d' : Durable σ α}
    (h : SameLeft held Ok d d') (w : Workflow σ ε α S) (wid : String) (engine : Engine) (n : ℕ) :
    Follow held Ok wid
      ((MachineOn.micro object w wid)^[n] (.start object w wid engine d.store d.world))
      ((Machine.micro w wid)^[n] (.start w wid engine d'.store d'.world)) := by
  have hstart := Follow.start hobject w wid engine h.ok h.held d.world
  rw [← h.world]
  exact hstart.iterate hobject n

/-- **The store can be swapped.** On any object that keeps appends, whatever the body does, whatever
attempts were cut short before and wherever a run stands, the phase of the run with its reply, the
engine, the world, the invocations and the stored histories are those on the dictionary. -/
theorem store_swappable (hobject : object.Keeps held Ok) (w : Workflow σ ε α S) (wid : String) (s : T)
    (hs : Ok s) (store : HistoryStore α) (hsame : held s = store.load) (world : σ)
    (attempts : List (Attempt σ)) (engine : Engine) (n : ℕ) :
    Follow held Ok wid
      ((MachineOn.micro object w wid)^[n] (.start object w wid engine
        (crashedOn object w wid s world attempts).store
        (crashedOn object w wid s world attempts).world))
      ((Machine.micro w wid)^[n] (.start w wid engine (crashed w wid store world attempts).store
        (crashed w wid store world attempts).world)) := by
  have hleft := sameLeft_crashed hobject w wid hs hsame world attempts
  exact hleft.follow hobject w wid engine n

open Steps in
/-- **Crash anywhere, on any store that keeps appends.** -/
theorem crash_anywhere_on (hobject : object.Keeps held Ok) (w : Script σ ε α)
    (hown : w.OwnErrors (· ≠ .replay)) (wid : String) (s : T) (hs : Ok s) (hempty : held s wid = [])
    (world : σ) (attempts : List (Attempt σ)) (engine : Engine) :
    ∃ (n : ℕ) (reply : Reply ε α) (m : MachineOn T σ ε α (Script σ ε α ⊕ WorkflowError ε)),
      (MachineOn.micro object w.toWorkflow wid)^[n] (.start object w.toWorkflow wid engine
        (crashedOn object w.toWorkflow wid s world attempts).store
        (crashedOn object w.toWorkflow wid s world attempts).world) = m ∧
      m.phase = .returned reply ∧ w.StraightThrough (held m.store wid) reply ∧
      (∀ i, i < (held m.store wid).length →
        ((crashedOn object w.toWorkflow wid s world attempts).invoked ++ m.invoked).count i =
          1 + (crashedOn object w.toWorkflow wid s world attempts).cuts.count i) ∧
      ∀ wid', wid' ≠ wid → held m.store wid' = held s wid' := by
  -- the dictionary with the same histories
  set store : HistoryStore α := ⟨fun id => some (held s id)⟩
  have hsame : held s = store.load := rfl
  have hnone : store.load wid = [] := hempty
  have hleft := sameLeft_crashed hobject w.toWorkflow wid hs hsame world attempts
  have hd : Left w wid store (crashed w.toWorkflow wid store world attempts) :=
    left_crashed hnone world attempts
  set d := crashed w.toWorkflow wid store world attempts
  obtain ⟨left, htrace⟩ := hd.trace
  have he : ({ engine with wid } : Engine).wid = wid := rfl
  obtain ⟨o, new, ho, hc⟩ := completes left (htrace.ownErrors hown) he d.store d.world (htrace.feed w)
  obtain ⟨n, hn⟩ := micro_of_runs ho
  have hfollow := hleft.follow hobject w.toWorkflow wid engine n
  rw [hn] at hfollow
  refine ⟨n, o.reply, _, rfl, hfollow.phase, ?_, ?_, ?_⟩
  · rw [hfollow.held, hc.load]
    exact htrace.append (by simpa using hc.trace)
  · intro i hi
    rw [hfollow.held] at hi
    rw [hfollow.invoked, hleft.invoked, hleft.cuts, (hd.completed hc).count_eq, List.count_append,
      List.count_range, if_pos hi]
  · intro wid' hne
    rw [hfollow.held, hsame, hc.other wid' hne, hd.other wid' hne]

/-! ## The log -/

/-- The history of `wid` in a log. -/
def rowsOf (log : List (String × HistoryEvent α)) (wid : String) : List (HistoryEvent α) :=
  (log.filter fun row => row.1 = wid).map (·.2)

theorem rowsOf_append (log : List (String × HistoryEvent α)) (wid : String) (ev : HistoryEvent α) :
    rowsOf (log ++ [(wid, ev)]) = Function.update (rowsOf log) wid (rowsOf log wid ++ [ev]) := by
  funext id
  by_cases hid : id = wid
  · subst hid
    simp [rowsOf]
  · rw [Function.update_of_ne hid]
    simp [rowsOf, Ne.symm hid]

/-- A log of all events keeps appends. -/
theorem logStore_keeps : (logStore α).Keeps rowsOf fun _ => True where
  load _ _ _ := rfl
  loaded _ _ _ := ⟨trivial, rfl⟩
  append log wid ev _ _ := by
    have hsave : (logStore α).save log wid (rowsOf log wid ++ [ev]) = log ++ [(wid, ev)] := by
      simp [logStore]
    rw [hsave]
    exact ⟨trivial, rowsOf_append log wid ev⟩

/-- An order that is charged. -/
def chargedOrder : Script ℕ Empty ℕ :=
  .step "charge" (fun n => (n, n + 1)) fun a => .ret (.ok a)

/-- A log in which another order is recorded. -/
def ordersLog : List (String × HistoryEvent ℕ) := [("order-2", ⟨0, "charge", 7⟩)]

/-- The run appends one row to the log, and is where the run on the dictionary is. -/
theorem store_swappable_log :
    ((MachineOn.micro (logStore ℕ) chargedOrder.toWorkflow "order-1")^[6]
        (.start (logStore ℕ) chargedOrder.toWorkflow "order-1" ⟨"", 0⟩ ordersLog 10)).store =
        [("order-2", ⟨0, "charge", 7⟩), ("order-1", ⟨0, "charge", 10⟩)] ∧
      ((MachineOn.micro (logStore ℕ) chargedOrder.toWorkflow "order-1")^[6]
          (.start (logStore ℕ) chargedOrder.toWorkflow "order-1" ⟨"", 0⟩ ordersLog 10)).phase =
        ((Machine.micro chargedOrder.toWorkflow "order-1")^[6]
          (.start chargedOrder.toWorkflow "order-1" ⟨"", 0⟩ ⟨fun id => some (rowsOf ordersLog id)⟩
            10)).phase :=
  ⟨rfl, (store_swappable logStore_keeps chargedOrder.toWorkflow "order-1" ordersLog trivial
    ⟨fun id => some (rowsOf ordersLog id)⟩ rfl 10 [] ⟨"", 0⟩ 6).phase⟩

/-- The order is charged after a cut in the middle of its step, and the other row is kept. -/
theorem crash_anywhere_on_log :
    ∃ (n : ℕ) (reply : Reply Empty ℕ)
        (m : MachineOn _ ℕ Empty ℕ (Script ℕ Empty ℕ ⊕ WorkflowError Empty)),
      (MachineOn.micro (logStore ℕ) chargedOrder.toWorkflow "order-1")^[n]
        (.start (logStore ℕ) chargedOrder.toWorkflow "order-1" ⟨"", 0⟩
          (crashedOn (logStore ℕ) chargedOrder.toWorkflow "order-1" ordersLog 10
            [⟨⟨"", 0⟩, 2, id⟩]).store
          (crashedOn (logStore ℕ) chargedOrder.toWorkflow "order-1" ordersLog 10
            [⟨⟨"", 0⟩, 2, id⟩]).world) = m ∧
      m.phase = .returned reply ∧
      chargedOrder.StraightThrough (rowsOf m.store "order-1") reply ∧
      rowsOf m.store "order-2" = [⟨0, "charge", 7⟩] := by
  obtain ⟨n, reply, m, hm, hphase, hstraight, -, hother⟩ := crash_anywhere_on logStore_keeps chargedOrder
    (fun _ => trivial) "order-1" ordersLog trivial rfl 10 [⟨⟨"", 0⟩, 2, id⟩] ⟨"", 0⟩
  exact ⟨n, reply, m, hm, hphase, hstraight, hother "order-2" (by decide)⟩

end DurableExecution
