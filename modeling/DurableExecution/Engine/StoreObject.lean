import DurableExecution.Engine.Crash

/-!
# Other stores

The engine asks of its store only that it has a `load` and a `save`, so that a database or a log can
take the place of the dictionary. Here is the engine of `Crash`, in the same small steps, on such an
object, and what the object must keep: it is never given anything but the history that it holds with
one more event, whose number is the next one, so it may as well append the event to a log.
-/

namespace DurableExecution

variable {σ ε α S T : Type}

/-- An object with `load` and `save`, in the states `T`. Loading may change the state, as a cache
does. -/
structure StoreObject (T α : Type) where
  load : T → String → List (HistoryEvent α) × T
  save : T → String → List (HistoryEvent α) → T

/-- In the states with `Ok`, the object holds the histories `held` and does not forget an event that
is appended to one of them. -/
structure StoreObject.Keeps (object : StoreObject T α) (held : T → String → List (HistoryEvent α))
    (Ok : T → Prop) : Prop where
  load : ∀ s wid, Ok s → (object.load s wid).1 = held s wid
  loaded : ∀ s wid, Ok s → Ok (object.load s wid).2 ∧ held (object.load s wid).2 = held s
  append : ∀ s wid ev, Ok s → ev.seq = (held s wid).length →
    Ok (object.save s wid (held s wid ++ [ev])) ∧
      held (object.save s wid (held s wid ++ [ev])) =
        Function.update (held s) wid (held s wid ++ [ev])

/-- A log of all events of all workflows, in the order in which they were recorded. Only the last
event of a saved history is written. -/
def logStore (α : Type) : StoreObject (List (String × HistoryEvent α)) α where
  load log wid := ((log.filter fun row => row.1 = wid).map (·.2), log)
  save log wid history := log ++ (history.getLast?.map fun ev => (wid, ev)).toList

/-- A run in progress on an object. -/
structure MachineOn (T σ ε α S : Type) where
  engine : Engine
  store : T
  world : σ
  phase : Phase σ ε α S
  /-- The positions at which this run has invoked a step function, in order. -/
  invoked : List ℕ

namespace MachineOn

variable (object : StoreObject T α)

/-- `run` is called: load the history and enter the body. -/
def start (w : Workflow σ ε α S) (wid : String) (engine : Engine) (store : T) (world : σ) :
    MachineOn T σ ε α S :=
  let (history, store) := object.load store wid
  ⟨{ engine with wid }, store, world, .body (.new wid history) w.start, []⟩

/-- One small step of `run`. -/
def micro (w : Workflow σ ε α S) (wid : String) (m : MachineOn T σ ε α S) : MachineOn T σ ε α S :=
  match m.phase with
  | .body ctx s =>
    match w.next s with
    | .ret (.error .replay) =>
      let (history, store) := object.load m.store wid
      { m with
        engine := { m.engine with replays := m.engine.replays + 1 }
        store := store
        phase := .body (.new wid history) w.start }
    | .ret reply => { m with phase := .returned reply }
    | .step stepId f k =>
      match ctx.serve stepId with
      | some (reply, ctx) => { m with phase := .body ctx (k reply) }
      | none => { m with phase := .closure ctx stepId f k, invoked := m.invoked ++ [ctx.cursor] }
  | .closure ctx stepId f k =>
    match f m.world with
    | (.error e, world) => { m with world, phase := .body ctx (k (.error (.crash e))) }
    | (.ok result, world) => { m with world, phase := .save ctx stepId result k }
  | .save ctx stepId result k =>
    let history := ctx.history ++ [⟨ctx.history.length, stepId, result⟩]
    { m with
      store := object.save m.store (m.engine.target .rust ctx) history
      phase := .body { ctx with history } (k (.error .replay)) }
  | .returned _ => m

end MachineOn

/-- What the attempts leave behind. -/
structure DurableOn (T σ : Type) where
  store : T
  world : σ
  invoked : List ℕ
  cuts : List ℕ

/-- One more attempt on `wid` that is cut short. -/
def DurableOn.attempt (object : StoreObject T α) (w : Workflow σ ε α S) (wid : String)
    (d : DurableOn T σ) (a : Attempt σ) : DurableOn T σ :=
  let m := (MachineOn.micro object w wid)^[a.cut] (.start object w wid a.engine d.store d.world)
  ⟨m.store, a.after m.world, d.invoked ++ m.invoked, d.cuts ++ m.phase.pending⟩

/-- Any number of attempts on `wid` that are cut short. -/
def crashedOn (object : StoreObject T α) (w : Workflow σ ε α S) (wid : String) (store : T) (world : σ)
    (attempts : List (Attempt σ)) : DurableOn T σ :=
  attempts.foldl (DurableOn.attempt object w wid) ⟨store, world, [], []⟩

end DurableExecution
