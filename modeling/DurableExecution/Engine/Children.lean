import Mathlib.Logic.Function.Iterate
import DurableExecution.Engine.History

/-!
# Child workflows

The Rust engine with step closures that run child workflows through other engines on the same store,
to any depth, in small steps so that a run can be cut short. The body of a child is part of the
closure that runs it. An engine has no state of its own beside a counter, so engines are left out.

A closure that has effects on the outside world is a leaf: it runs no child, and the call of a leaf
and its save are one small step. What a closure that runs children does in between depends on what
the children have returned only.
-/

namespace DurableExecution

namespace Children

variable {σ ε α : Type}

mutual

/-- A deterministic body that propagates every error of `ctx.step`. -/
inductive Body (σ ε α : Type) where
  | ret (reply : Reply ε α)
  | step (stepId : String) (c : Closure σ ε α) (k : α → Body σ ε α)

/-- A step closure. -/
inductive Closure (σ ε α : Type) where
  /-- A leaf: it reads and changes the outside world. -/
  | leaf (f : σ → α × σ)
  | ret (result : α)
  /-- It runs a child workflow, and goes on with what `run` has returned. -/
  | run (wid : String) (child : Body σ ε α) (k : Reply ε α → Closure σ ε α)

end

/-- Where a run is. -/
inductive Place (σ ε α : Type) where
  /-- In body code. -/
  | body (b : Body σ ε α)
  /-- In the closure of the step `stepId`. -/
  | closure (stepId : String) (c : Closure σ ε α)

/-- A run whose code is running. -/
structure Frame (σ ε α : Type) where
  /-- The workflow that `run` was called with. -/
  workflow : Body σ ε α
  ctx : WorkflowContext α
  place : Place σ ε α

/-- A run whose step closure waits for a child. -/
structure Waiting (σ ε α : Type) where
  workflow : Body σ ε α
  ctx : WorkflowContext α
  stepId : String
  k : Reply ε α → Closure σ ε α

/-- The runs in progress: the innermost one, and the runs that wait, the innermost first. -/
inductive Stage (σ ε α : Type) where
  | running (top : Frame σ ε α) (outer : List (Waiting σ ε α))
  /-- The outermost `run` has returned. -/
  | returned (reply : Reply ε α)

/-- What a crash leaves behind, and for the statements only the invocations of leaves, each with the
id of its workflow and its position. -/
structure Durable (σ α : Type) where
  store : HistoryStore α
  world : σ
  invoked : List (String × ℕ)

/-- An attempt in progress. -/
structure Machine (σ ε α : Type) where
  durable : Durable σ α
  stage : Stage σ ε α

/-- `run` has loaded the history and enters the body. -/
def enter (store : HistoryStore α) (wid : String) (workflow : Body σ ε α) : Frame σ ε α :=
  ⟨workflow, .new wid (store.load wid), .body workflow⟩

/-- The outermost `run` is called. -/
def Machine.start (wid : String) (root : Body σ ε α) (d : Durable σ α) : Machine σ ε α :=
  ⟨d, .running (enter d.store wid root) []⟩

/-- The closure has returned `result`: append it to the history, make that durable, and leave the
body with `replay`. -/
def Machine.record (m : Machine σ ε α) (f : Frame σ ε α) (outer : List (Waiting σ ε α))
    (stepId : String) (result : α) : Machine σ ε α :=
  let (ctx, store) := f.ctx.record f.ctx.wid stepId result m.durable.store
  ⟨{ m.durable with store }, .running { f with ctx, place := .body (.ret (.error .replay)) } outer⟩

/-- One small step. -/
def micro (m : Machine σ ε α) : Machine σ ε α :=
  match m.stage with
  | .returned _ => m
  | .running f outer =>
    match f.place with
    | .body (.ret (.error .replay)) =>
      { m with stage := .running (enter m.durable.store f.ctx.wid f.workflow) outer }
    | .body (.ret reply) =>
      match outer with
      | [] => { m with stage := .returned reply }
      | p :: outer =>
        { m with stage := .running ⟨p.workflow, p.ctx, .closure p.stepId (p.k reply)⟩ outer }
    | .body (.step stepId c k) =>
      match f.ctx.serve stepId with
      | some (.ok v, ctx) => { m with stage := .running { f with ctx, place := .body (k v) } outer }
      | some (.error e, ctx) =>
        { m with stage := .running { f with ctx, place := .body (.ret (.error e)) } outer }
      | none => { m with stage := .running { f with place := .closure stepId c } outer }
    | .closure stepId (.leaf g) =>
      let (v, world) := g m.durable.world
      let d := { m.durable with world, invoked := m.durable.invoked ++ [(f.ctx.wid, f.ctx.cursor)] }
      ({ m with durable := d } : Machine σ ε α).record f outer stepId v
    | .closure stepId (.ret v) => m.record f outer stepId v
    | .closure stepId (.run wid child k) =>
      { m with stage :=
          .running (enter m.durable.store wid child) (⟨f.workflow, f.ctx, stepId, k⟩ :: outer) }

/-- One attempt on the outermost workflow, cut after `n` small steps. -/
def attempt (wid : String) (root : Body σ ε α) (n : ℕ) (d : Durable σ α) : Durable σ α :=
  (micro^[n] (.start wid root d)).durable

/-- Any number of attempts, each cut short. -/
def crashed (wid : String) (root : Body σ ε α) (d : Durable σ α) (cuts : List ℕ) : Durable σ α :=
  cuts.foldl (fun d n => attempt wid root n d) d

/-- An attempt that is not cut short returns `reply` and leaves `d'` behind. -/
def Returns (wid : String) (root : Body σ ε α) (d : Durable σ α) (reply : Reply ε α)
    (d' : Durable σ α) : Prop :=
  ∃ n, micro^[n] (.start wid root d) = ⟨d', .returned reply⟩

/-! ## Conditions on the workflows -/

mutual

/-- On every path, the ids of the children are none of `ids`, and pairwise distinct where one of the
workflows is run within the other or after the other in the same closure. -/
def Body.Apart : List String → Body σ ε α → Prop
  | _, .ret _ => True
  | ids, .step _ c k => c.Apart ids ∧ ∀ v, (k v).Apart ids

def Closure.Apart : List String → Closure σ ε α → Prop
  | _, .leaf _ => True
  | _, .ret _ => True
  | ids, .run wid child k =>
    wid ∉ ids ∧ child.Apart (wid :: ids) ∧ ∀ reply, (k reply).Apart (wid :: ids)

end

mutual

/-- No body makes up an error `replay` of its own. -/
def Body.NoReplay : Body σ ε α → Prop
  | .ret reply => reply ≠ .error .replay
  | .step _ c k => c.NoReplay ∧ ∀ v, (k v).NoReplay

def Closure.NoReplay : Closure σ ε α → Prop
  | .leaf _ => True
  | .ret _ => True
  | .run _ child k => child.NoReplay ∧ ∀ reply, (k reply).NoReplay

end

/-! ## Straight-through execution -/

/-- The event of a step that `wid` has taken, at the end of its history. -/
def Durable.append (d : Durable σ α) (wid stepId : String) (result : α) : Durable σ α :=
  let history := d.store.load wid
  { d with store := d.store.save wid (history ++ [⟨history.length, stepId, result⟩]) }

/-- A leaf is called for the next step of `wid`. -/
def Durable.invoke (d : Durable σ α) (wid : String) (f : σ → α × σ) : α × Durable σ α :=
  let r := f d.world
  (r.1, { d with world := r.2, invoked := d.invoked ++ [(wid, (d.store.load wid).length)] })

mutual

/-- The body executed once from top to bottom, without an engine: the closure of each step is called
once, where the body comes to it. -/
def Body.straight : Body σ ε α → String → Durable σ α → Reply ε α × Durable σ α
  | .ret reply, _, d => (reply, d)
  | .step stepId c k, wid, d =>
    let r := c.straight wid d
    (k r.1).straight wid (r.2.append wid stepId r.1)

def Closure.straight : Closure σ ε α → String → Durable σ α → α × Durable σ α
  | .leaf f, wid, d => d.invoke wid f
  | .ret result, _, d => (result, d)
  | .run wid' child k, wid, d =>
    let r := child.straight wid' d
    (k r.1).straight wid r.2

end

mutual

/-- The ids of the child workflows that the straight-through execution runs, in order. -/
def Body.ran : Body σ ε α → String → Durable σ α → List String
  | .ret _, _, _ => []
  | .step stepId c k, wid, d =>
    let r := c.straight wid d
    c.ran wid d ++ (k r.1).ran wid (r.2.append wid stepId r.1)

def Closure.ran : Closure σ ε α → String → Durable σ α → List String
  | .leaf _, _, _ => []
  | .ret _, _, _ => []
  | .run wid' child k, wid, d =>
    let r := child.straight wid' d
    wid' :: (child.ran wid' d ++ (k r.1).ran wid r.2)

end

end Children

end DurableExecution
