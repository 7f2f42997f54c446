import DurableExecution.Library.System
import DurableExecution.Engine.Crash

/-!
# A fleet of engines on one store

Any number of workflows, each with an id of its own, run by engines that share a store and an outside
world. At each moment one of the runs takes one small step; which one is left open, and so is when a
run is started, when it is cut short, and what else happens to the world.
-/

namespace DurableExecution

/-- A run in progress. -/
structure Job (σ ε α S : Type) where
  engine : Engine
  phase : Phase σ ε α S

/-- The store, the world and the runs in progress. For the statements only: the positions at which
the step functions of each id were invoked, and those at which a run was cut after the invocation and
before the save, in order. -/
structure Fleet (σ ε α S : Type) where
  store : HistoryStore α
  world : σ
  jobs : String → Option (Job σ ε α S)
  invoked : String → List ℕ
  cuts : String → List ℕ

/-- What can happen next. -/
inductive FleetAct (σ : Type) where
  /-- An engine calls `run` or `resume` on an id of which no run is in progress. -/
  | run (wid : String) (engine : Engine)
  /-- The run of the id takes one small step. -/
  | small (wid : String)
  /-- The run of the id ends: it is cut short, or it has returned. -/
  | cut (wid : String)
  /-- The world changes. -/
  | outside (change : σ → σ)

namespace Fleet

variable {σ ε α S : Type}

def init (store : HistoryStore α) (world : σ) : Fleet σ ε α S :=
  ⟨store, world, fun _ => none, fun _ => [], fun _ => []⟩

/-- The run of `wid`, with the store and the world that it works on. -/
def machine (s : Fleet σ ε α S) (wid : String) (job : Job σ ε α S) : Machine σ ε α S :=
  ⟨job.engine, s.store, s.world, job.phase, s.invoked wid⟩

/-- What the run of `wid` leaves behind. -/
def absorb (s : Fleet σ ε α S) (wid : String) (m : Machine σ ε α S) : Fleet σ ε α S :=
  { s with
    store := m.store
    world := m.world
    jobs := Function.update s.jobs wid (some ⟨m.engine, m.phase⟩)
    invoked := Function.update s.invoked wid m.invoked }

def next (w : String → Workflow σ ε α S) (s : Fleet σ ε α S) : FleetAct σ → Option (Fleet σ ε α S)
  | .run wid engine =>
    match s.jobs wid with
    | none =>
      let m := Machine.start (w wid) wid engine s.store s.world
      some { s with jobs := Function.update s.jobs wid (some ⟨m.engine, m.phase⟩) }
    | some _ => none
  | .small wid => (s.jobs wid).map fun job => s.absorb wid ((s.machine wid job).micro (w wid) wid)
  | .cut wid => (s.jobs wid).map fun job =>
    { s with
      jobs := Function.update s.jobs wid none
      cuts := Function.update s.cuts wid (s.cuts wid ++ job.phase.pending) }
  | .outside change => some { s with world := change s.world }

/-- The run of `wid` has returned. -/
def Returned (s : Fleet σ ε α S) (wid : String) : Prop :=
  ∃ engine reply, s.jobs wid = some ⟨engine, .returned reply⟩

end Fleet

end DurableExecution
