import DurableExecution.Library.Steps
import DurableExecution.Engine.Children

/-!
# Proofs: child workflows and crashes

`Body.finish` is what a body does from position `i` of its history to its end, without an engine.
The small steps do not change what the outermost workflow finishes with (`Aligned`), so neither does
an attempt that is cut short; and an attempt that is not cut gets there (`Body.leads`).
-/

namespace DurableExecution

namespace Children

open Steps

variable {σ ε α : Type}

/-- `serve` has answered: with the recorded value, or with the report of another id. -/
theorem serve_cases {ctx ctx' : WorkflowContext α} {stepId : String} {reply : Reply ε α}
    (h : ctx.serve stepId = some (reply, ctx')) :
    (∃ ev, ctx.history[ctx.cursor]? = some ev ∧ ev.stepId = stepId ∧ reply = .ok ev.result ∧
      ctx' = { ctx with cursor := ctx.cursor + 1 }) ∨
    ∃ message, reply = .error (.nonDeterministic message) ∧ ctx' = ctx := by
  unfold WorkflowContext.serve at h
  split at h
  · next ev hev =>
    split at h
    · obtain ⟨rfl, rfl⟩ := Prod.mk.inj (Option.some.inj h)
      exact Or.inr ⟨_, rfl, rfl⟩
    · next hid =>
      obtain ⟨rfl, rfl⟩ := Prod.mk.inj (Option.some.inj h)
      exact Or.inl ⟨ev, hev, not_not.mp hid, rfl, rfl⟩
  · cases h

/-! ## What is left to do -/

mutual

/-- What the body does from position `i` of the history of `wid` to its end: it is served the steps
that are recorded, and takes the others. `none` means that it comes to an error `replay` that it
makes up itself. -/
def Body.finish : Body σ ε α → String → ℕ → Durable σ α → Option (Reply ε α × Durable σ α)
  | .ret (.error .replay), _, _, _ => none
  | .ret reply, _, _, d => some (reply, d)
  | .step stepId c k, wid, i, d =>
    match (⟨wid, d.store.load wid, i⟩ : WorkflowContext α).serve stepId with
    | some (.ok v, _) => (k v).finish wid (i + 1) d
    | some (.error e, _) => some (.error e, d)
    | none => (c.finish wid d).bind fun r => (k r.1).finish wid (i + 1) (r.2.append wid stepId r.1)

/-- What the closure of a step of `wid` does. -/
def Closure.finish : Closure σ ε α → String → Durable σ α → Option (α × Durable σ α)
  | .leaf f, wid, d => some (d.invoke wid f)
  | .ret result, _, d => some (result, d)
  | .run wid' child k, wid, d =>
    (child.finish wid' 0 d).bind fun r => (k r.1).finish wid r.2

end

theorem Body.finish_ret {reply : Reply ε α} (hr : reply ≠ .error .replay) (wid : String) (i : ℕ)
    (d : Durable σ α) : (Body.ret reply).finish wid i d = some (reply, d) := by
  unfold Body.finish
  split <;> simp_all

theorem Body.finish_ret_eq_some {reply reply' : Reply ε α} {wid : String} {i : ℕ} {d d' : Durable σ α}
    (h : (Body.ret reply).finish wid i d = some (reply', d')) :
    reply ≠ .error .replay ∧ reply' = reply ∧ d' = d := by
  by_cases hr : reply = .error .replay
  · subst hr
    simp [Body.finish] at h
  · rw [Body.finish_ret hr] at h
    obtain ⟨rfl, rfl⟩ := Prod.mk.inj (Option.some.inj h)
    exact ⟨hr, rfl, rfl⟩

section Finish

variable {stepId wid : String} {c : Closure σ ε α} {k : α → Body σ ε α} {i : ℕ} {d : Durable σ α}

theorem Body.finish_served {ev : HistoryEvent α} (hev : (d.store.load wid)[i]? = some ev)
    (hid : ev.stepId = stepId) :
    (Body.step stepId c k).finish wid i d = (k ev.result).finish wid (i + 1) d := by
  subst hid
  have hev' : (⟨wid, d.store.load wid, i⟩ : WorkflowContext α).history[i]? = some ev := hev
  have hserve : _ = some ((.ok ev.result : Reply ε α), _) := WorkflowContext.serve_match hev'
  rw [Body.finish, hserve]

theorem Body.finish_mismatch {message : String} {ctx : WorkflowContext α}
    (h : (⟨wid, d.store.load wid, i⟩ : WorkflowContext α).serve stepId =
      some ((.error (.nonDeterministic message) : Reply ε α), ctx)) :
    (Body.step stepId c k).finish wid i d = some (.error (.nonDeterministic message), d) := by
  rw [Body.finish, h]

theorem Body.finish_live (h : (d.store.load wid).length ≤ i) :
    (Body.step stepId c k).finish wid i d =
      (c.finish wid d).bind fun r => (k r.1).finish wid (i + 1) (r.2.append wid stepId r.1) := by
  have hserve : ((⟨wid, d.store.load wid, i⟩ : WorkflowContext α).serve stepId :
      Option (Reply ε α × WorkflowContext α)) = none := WorkflowContext.serve_eq_none_iff.mpr h
  rw [Body.finish, hserve]

/-- What a body that comes to a step has finished with. -/
theorem Body.finish_step_cases {reply : Reply ε α} {d' : Durable σ α}
    (h : (Body.step stepId c k).finish wid i d = some (reply, d')) :
    (∃ ev, (d.store.load wid)[i]? = some ev ∧ ev.stepId = stepId ∧
      (k ev.result).finish wid (i + 1) d = some (reply, d')) ∨
    (∃ message ctx, (⟨wid, d.store.load wid, i⟩ : WorkflowContext α).serve stepId =
        some ((.error (.nonDeterministic message) : Reply ε α), ctx) ∧
      reply = .error (.nonDeterministic message) ∧ d' = d) ∨
    ((d.store.load wid).length ≤ i ∧ ∃ v d₁, c.finish wid d = some (v, d₁) ∧
      (k v).finish wid (i + 1) (d₁.append wid stepId v) = some (reply, d')) := by
  rcases hserve : ((⟨wid, d.store.load wid, i⟩ : WorkflowContext α).serve stepId :
      Option (Reply ε α × WorkflowContext α)) with _ | ⟨r, ctx⟩
  · have hend := WorkflowContext.serve_eq_none_iff.mp hserve
    rw [Body.finish_live hend] at h
    obtain ⟨⟨v, d₁⟩, hc, hk⟩ := Option.bind_eq_some_iff.mp h
    exact Or.inr (Or.inr ⟨hend, v, d₁, hc, hk⟩)
  · rcases serve_cases hserve with ⟨ev, hev, hid, rfl, -⟩ | ⟨message, rfl, -⟩
    · rw [Body.finish_served hev hid] at h
      exact Or.inl ⟨ev, hev, hid, h⟩
    · rw [Body.finish_mismatch hserve] at h
      obtain ⟨rfl, rfl⟩ := Prod.mk.inj (Option.some.inj h)
      exact Or.inr (Or.inl ⟨message, ctx, rfl, rfl, rfl⟩)

end Finish

/-! ### The histories -/

@[simp] theorem Durable.load_append (d : Durable σ α) (wid stepId : String) (v : α) :
    (d.append wid stepId v).store.load wid =
      d.store.load wid ++ [⟨(d.store.load wid).length, stepId, v⟩] :=
  HistoryStore.load_save _ _ _

theorem Durable.length_append (d : Durable σ α) (wid stepId : String) (v : α) :
    ((d.append wid stepId v).store.load wid).length = (d.store.load wid).length + 1 := by
  rw [Durable.load_append, List.length_append, List.length_singleton]

theorem Durable.load_append_of_ne (d : Durable σ α) {wid id : String} (h : id ≠ wid) (stepId : String)
    (v : α) : (d.append wid stepId v).store.load id = d.store.load id :=
  HistoryStore.load_save_of_ne _ h _

theorem Durable.prefix_append (d : Durable σ α) (wid stepId : String) (v : α) (id : String) :
    d.store.load id <+: (d.append wid stepId v).store.load id := by
  by_cases h : id = wid
  · subst h
    rw [Durable.load_append]
    exact List.prefix_append _ _
  · simp [Durable.load_append_of_ne d h]

mutual

/-- What a body does leaves the histories of the ids alone that its children are apart from. -/
theorem Body.finish_load : ∀ (b : Body σ ε α) ⦃ids : List String⦄ ⦃wid : String⦄ ⦃i : ℕ⦄
    ⦃d d' : Durable σ α⦄ ⦃reply : Reply ε α⦄, b.Apart ids → b.finish wid i d = some (reply, d') →
    ∀ id ∈ ids, id ≠ wid → d'.store.load id = d.store.load id
  | .ret reply => by
    intro ids wid i d d' reply' _ h id _ _
    obtain ⟨-, -, rfl⟩ := Body.finish_ret_eq_some h
    rfl
  | .step stepId c k => by
    intro ids wid i d d' reply ⟨hc, hk⟩ h id hid hne
    rcases Body.finish_step_cases h with ⟨ev, -, -, h⟩ | ⟨-, -, -, -, rfl⟩ | ⟨-, v, d₁, h₁, h⟩
    · exact Body.finish_load (k ev.result) (hk _) h id hid hne
    · rfl
    · rw [Body.finish_load (k v) (hk _) h id hid hne, Durable.load_append_of_ne _ hne]
      exact Closure.finish_load c hc h₁ id hid

theorem Closure.finish_load : ∀ (c : Closure σ ε α) ⦃ids : List String⦄ ⦃wid : String⦄
    ⦃d d' : Durable σ α⦄ ⦃v : α⦄, c.Apart ids → c.finish wid d = some (v, d') →
    ∀ id ∈ ids, d'.store.load id = d.store.load id
  | .leaf f => by
    intro ids wid d d' v _ h id _
    obtain ⟨-, rfl⟩ := Prod.mk.inj (Option.some.inj h)
    rfl
  | .ret result => by
    intro ids wid d d' v _ h id _
    obtain ⟨-, rfl⟩ := Prod.mk.inj (Option.some.inj h)
    rfl
  | .run wid' child k => by
    intro ids wid d d' v ⟨hnot, hchild, hk⟩ h id hid
    obtain ⟨⟨reply, d₁⟩, h₁, h₂⟩ := Option.bind_eq_some_iff.mp h
    have hne : id ≠ wid' := fun heq => hnot (heq ▸ hid)
    have hid' : id ∈ wid' :: ids := List.mem_cons_of_mem _ hid
    rw [Closure.finish_load (k reply) (hk reply) h₂ id hid']
    exact Body.finish_load child hchild h₁ id hid' hne

end

/-! ### Feeding a body -/

/-- What is left of a body after it was fed the events of `h`, if it asks for their ids in order. -/
def Body.feed : List (HistoryEvent α) → Body σ ε α → Option (Body σ ε α)
  | [], b => some b
  | _ :: _, .ret _ => none
  | ev :: h, .step stepId _ k => if ev.stepId = stepId then (k ev.result).feed h else none

/-- A body that is fed an event asks for its id. -/
theorem Body.feed_cons {b b' : Body σ ε α} {ev : HistoryEvent α} {h : List (HistoryEvent α)}
    (hf : b.feed (ev :: h) = some b') :
    ∃ c k, b = .step ev.stepId c k ∧ (k ev.result).feed h = some b' := by
  cases b with
  | ret reply => cases hf
  | step stepId c k =>
    by_cases hid : ev.stepId = stepId
    · subst hid
      exact ⟨c, k, rfl, by simpa [Body.feed] using hf⟩
    · simp [Body.feed, hid] at hf

/-- Feeding one more event. -/
theorem Body.feed_snoc {b : Body σ ε α} {h : List (HistoryEvent α)} {stepId : String}
    {c : Closure σ ε α} {k : α → Body σ ε α} (hf : b.feed h = some (.step stepId c k)) (seq : ℕ)
    (v : α) : b.feed (h ++ [⟨seq, stepId, v⟩]) = some (k v) := by
  induction h generalizing b with
  | nil =>
    obtain rfl := Option.some.inj hf
    simp [Body.feed]
  | cons ev h ih =>
    obtain ⟨c', k', rfl, hf'⟩ := Body.feed_cons hf
    simpa only [List.cons_append, Body.feed, if_true] using ih hf'

theorem Body.Apart.feed {b b' : Body σ ε α} {ids : List String} {h : List (HistoryEvent α)}
    (hb : b.Apart ids) (hf : b.feed h = some b') : b'.Apart ids := by
  induction h generalizing b with
  | nil =>
    obtain rfl := Option.some.inj hf
    exact hb
  | cons ev h ih =>
    obtain ⟨c, k, rfl, hf'⟩ := Body.feed_cons hf
    exact ih (hb.2 ev.result) hf'

/-- A recorded event stands at the cursor, and the others behind it. -/
theorem of_prefix_drop {h l : List α} {v : α} {i : ℕ} (hp : v :: h <+: l.drop i) :
    l[i]? = some v ∧ h <+: l.drop (i + 1) := by
  obtain ⟨t, ht⟩ := hp
  have hv : (l.drop i)[0]? = some v := by rw [← ht]; rfl
  rw [List.getElem?_drop, Nat.add_zero] at hv
  refine ⟨hv, t, ?_⟩
  rw [← List.tail_drop, ← ht]
  rfl

/-- A body goes on from where the recorded events have led it. -/
theorem Body.finish_feed {b b' : Body σ ε α} {h : List (HistoryEvent α)} (hf : b.feed h = some b')
    {wid : String} {i : ℕ} {d : Durable σ α} (hp : h <+: (d.store.load wid).drop i) :
    b.finish wid i d = b'.finish wid (i + h.length) d := by
  induction h generalizing b i with
  | nil =>
    obtain rfl := Option.some.inj hf
    rfl
  | cons ev h ih =>
    obtain ⟨c, k, rfl, hf'⟩ := Body.feed_cons hf
    obtain ⟨hev, hp⟩ := of_prefix_drop hp
    rw [Body.finish_served hev rfl, ih hf' hp, List.length_cons, Nat.add_assoc, Nat.add_comm 1]

theorem Body.finish_take {workflow b : Body σ ε α} {wid : String} {i : ℕ} {d : Durable σ α}
    (hi : i ≤ (d.store.load wid).length) (hf : workflow.feed ((d.store.load wid).take i) = some b) :
    workflow.finish wid 0 d = b.finish wid i d := by
  have hp : (d.store.load wid).take i <+: (d.store.load wid).drop 0 := List.take_prefix _ _
  have hfinish := Body.finish_feed hf hp
  rwa [List.length_take, Nat.min_eq_left hi, Nat.zero_add] at hfinish

theorem Body.finish_all {workflow b : Body σ ε α} {wid : String} {d : Durable σ α}
    (hf : workflow.feed (d.store.load wid) = some b) :
    workflow.finish wid 0 d = b.finish wid (d.store.load wid).length d := by
  apply Body.finish_take (Nat.le_refl _)
  rwa [List.take_length]

/-! ## The small steps -/

section Micro

variable {d : Durable σ α} {workflow : Body σ ε α} {ctx : WorkflowContext α}
  {outer : List (Waiting σ ε α)} {stepId : String} {c : Closure σ ε α} {k : α → Body σ ε α}
  {reply : Reply ε α}

theorem micro_replay : micro ⟨d, .running ⟨workflow, ctx, .body (.ret (.error .replay))⟩ outer⟩ =
    ⟨d, .running (enter d.store ctx.wid workflow) outer⟩ := rfl

theorem micro_return (hr : reply ≠ .error .replay) :
    micro ⟨d, .running ⟨workflow, ctx, .body (.ret reply)⟩ []⟩ = ⟨d, .returned reply⟩ := by
  rcases reply with (_ | message | failure) | v
  · exact absurd rfl hr
  · rfl
  · rfl
  · rfl

theorem micro_resume (hr : reply ≠ .error .replay) (p : Waiting σ ε α) :
    micro ⟨d, .running ⟨workflow, ctx, .body (.ret reply)⟩ (p :: outer)⟩ =
      ⟨d, .running ⟨p.workflow, p.ctx, .closure p.stepId (p.k reply)⟩ outer⟩ := by
  rcases reply with (_ | message | failure) | v
  · exact absurd rfl hr
  · rfl
  · rfl
  · rfl

theorem micro_served {ev : HistoryEvent α} (hev : ctx.history[ctx.cursor]? = some ev)
    (hid : ev.stepId = stepId) :
    micro ⟨d, .running ⟨workflow, ctx, .body (.step stepId c k)⟩ outer⟩ =
      ⟨d, .running ⟨workflow, { ctx with cursor := ctx.cursor + 1 }, .body (k ev.result)⟩ outer⟩ := by
  subst hid
  have hserve : _ = some ((.ok ev.result : Reply ε α), _) := WorkflowContext.serve_match hev
  simp only [micro, hserve]

theorem micro_mismatch {e : WorkflowError ε} {ctx' : WorkflowContext α}
    (h : ctx.serve stepId = some ((.error e : Reply ε α), ctx')) :
    micro ⟨d, .running ⟨workflow, ctx, .body (.step stepId c k)⟩ outer⟩ =
      ⟨d, .running ⟨workflow, ctx', .body (.ret (.error e))⟩ outer⟩ := by
  simp only [micro, h]

theorem micro_call (h : ctx.history.length ≤ ctx.cursor) :
    micro ⟨d, .running ⟨workflow, ctx, .body (.step stepId c k)⟩ outer⟩ =
      ⟨d, .running ⟨workflow, ctx, .closure stepId c⟩ outer⟩ := by
  have hserve : (ctx.serve stepId : Option (Reply ε α × WorkflowContext α)) = none :=
    WorkflowContext.serve_eq_none_iff.mpr h
  simp only [micro, hserve]

/-- A closure that does not run a child returns, and its result is saved. -/
theorem micro_record {wid : String} {v : α} {d₁ : Durable σ α} (hc : c.finish wid d = some (v, d₁))
    (hrun : ∀ wid' child k, c ≠ .run wid' child k) :
    micro ⟨d, .running ⟨workflow, ⟨wid, d.store.load wid, (d.store.load wid).length⟩,
        .closure stepId c⟩ outer⟩ =
      ⟨d₁.append wid stepId v, .running ⟨workflow, ⟨wid, (d₁.append wid stepId v).store.load wid,
        (d.store.load wid).length⟩, .body (.ret (.error .replay))⟩ outer⟩ ∧ d₁.store = d.store := by
  cases c with
  | leaf f =>
    obtain ⟨rfl, rfl⟩ := Prod.mk.inj (Option.some.inj hc)
    refine ⟨?_, rfl⟩
    simp [micro, Machine.record, WorkflowContext.record, Durable.append]
  | ret result =>
    obtain ⟨rfl, rfl⟩ := Prod.mk.inj (Option.some.inj hc)
    refine ⟨?_, rfl⟩
    simp [micro, Machine.record, WorkflowContext.record, Durable.append]
  | run wid' child k => exact absurd rfl (hrun wid' child k)

theorem micro_run {wid : String} {child : Body σ ε α} {k : Reply ε α → Closure σ ε α} :
    micro ⟨d, .running ⟨workflow, ctx, .closure stepId (.run wid child k)⟩ outer⟩ =
      ⟨d, .running (enter d.store wid child) (⟨workflow, ctx, stepId, k⟩ :: outer)⟩ := rfl

end Micro

/-! ## What an attempt keeps -/

/-- The histories of `ids` are the same. -/
def Agrees (ids : List String) (store store' : HistoryStore α) : Prop :=
  ∀ id ∈ ids, store'.load id = store.load id

/-- The run of `workflow` as `wid` is in the closure of the step `stepId`, of which `c` is left. What
the body does from the top is then what `c` does, and after it what the body does from the top when
the result is recorded; only the histories of `ids` matter for that. -/
structure InClosure (store : HistoryStore α) (ids : List String) (wid : String)
    (workflow : Body σ ε α) (stepId : String) (c : Closure σ ε α) : Prop where
  apart : c.Apart ids
  own : wid ∈ ids
  finish : ∀ d : Durable σ α, Agrees ids store d.store → workflow.finish wid 0 d =
    (c.finish wid d).bind fun r => workflow.finish wid 0 (r.2.append wid stepId r.1)

/-- The run of `workflow` as `wid` is in body code, with the cursor at `i`, and `b` is left. -/
inductive InBody (store : HistoryStore α) (wid : String) (workflow : Body σ ε α) (i : ℕ) :
    Body σ ε α → Prop where
  /-- The last step has been recorded. -/
  | replay : InBody store wid workflow i (.ret (.error .replay))
  /-- The body has followed the history up to the cursor. -/
  | fed {b : Body σ ε α} (hi : i ≤ (store.load wid).length)
      (hf : workflow.feed ((store.load wid).take i) = some b) : InBody store wid workflow i b
  /-- Another id is recorded than the body has asked for. -/
  | reported {reply : Reply ε α}
      (h : ∀ d : Durable σ α, d.store.load wid = store.load wid →
        workflow.finish wid 0 d = some (reply, d)) : InBody store wid workflow i (.ret reply)

/-- The runs that wait, when the innermost run is that of `workflow` as `wid`. What they have done
so far depends on the histories of `ids`, which the innermost run is apart from. -/
inductive Stack (wid₀ : String) (root : Body σ ε α) (store : HistoryStore α) :
    List String → String → Body σ ε α → List (Waiting σ ε α) → Prop where
  | nil (h : root.Apart [wid₀]) : Stack wid₀ root store [] wid₀ root []
  | cons {ids ids' : List String} {w wid : String} {child : Body σ ε α} {p : Waiting σ ε α}
      {outer : List (Waiting σ ε α)} (hs : Stack wid₀ root store ids w p.workflow outer)
      (hctx : p.ctx = ⟨w, store.load w, (store.load w).length⟩) (hids : ids ⊆ ids')
      (hc : InClosure store ids' w p.workflow p.stepId (.run wid child p.k)) :
      Stack wid₀ root store ids' wid child (p :: outer)

/-- Where the innermost run can be. -/
def Stands (store : HistoryStore α) (ids : List String) (wid : String) (workflow : Body σ ε α)
    (i : ℕ) : Place σ ε α → Prop
  | .body b => InBody store wid workflow i b
  | .closure stepId c => i = (store.load wid).length ∧
      ∃ ids', ids ⊆ ids' ∧ InClosure store ids' wid workflow stepId c

/-- An attempt on `root` that will finish with `e`, from where it is and when it is cut. -/
inductive Aligned (wid₀ : String) (root : Body σ ε α) (e : Option (Reply ε α × Durable σ α)) :
    Machine σ ε α → Prop where
  | running {d : Durable σ α} {ids : List String} {wid : String} {workflow : Body σ ε α} {i : ℕ}
      {place : Place σ ε α} {outer : List (Waiting σ ε α)} (he : root.finish wid₀ 0 d = e)
      (hs : Stack wid₀ root d.store ids wid workflow outer)
      (hp : Stands d.store ids wid workflow i place) :
      Aligned wid₀ root e ⟨d, .running ⟨workflow, ⟨wid, d.store.load wid, i⟩, place⟩ outer⟩
  | returned {d : Durable σ α} {reply : Reply ε α} (he : root.finish wid₀ 0 d = e)
      (h : e = some (reply, d)) : Aligned wid₀ root e ⟨d, .returned reply⟩

section Invariant

variable {store store' : HistoryStore α} {ids : List String} {wid wid₀ stepId : String}
  {workflow root child : Body σ ε α} {i : ℕ} {c : Closure σ ε α} {reply : Reply ε α}
  {k : Reply ε α → Closure σ ε α} {outer : List (Waiting σ ε α)} {d : Durable σ α}
  {e : Option (Reply ε α × Durable σ α)}

theorem Agrees.trans_left {store'' : HistoryStore α} (h : Agrees ids store store')
    (h' : Agrees ids store' store'') : Agrees ids store store'' :=
  fun id hid => (h' id hid).trans (h id hid)

theorem Agrees.mono {ids' : List String} (h : Agrees ids' store store') (hids : ids ⊆ ids') :
    Agrees ids store store' := fun id hid => h id (hids hid)

theorem InClosure.mono (hc : InClosure store ids wid workflow stepId c)
    (h : Agrees ids store store') : InClosure store' ids wid workflow stepId c :=
  ⟨hc.apart, hc.own, fun d hd => hc.finish d (h.trans_left hd)⟩

/-- What a body that returns finishes with. -/
theorem InBody.returned (hb : InBody store wid workflow i (.ret reply))
    (hr : reply ≠ .error .replay) (hd : d.store.load wid = store.load wid) :
    workflow.finish wid 0 d = some (reply, d) := by
  cases hb with
  | replay => exact absurd rfl hr
  | fed hi hf =>
    rw [← hd] at hi hf
    rw [Body.finish_take hi hf, Body.finish_ret hr]
  | reported h => exact h d hd

/-- The body comes to a step that is not recorded. -/
theorem InClosure.of_feed {k : α → Body σ ε α} (hwf : workflow.Apart (wid :: ids))
    (hf : workflow.feed (store.load wid) = some (.step stepId c k)) :
    InClosure store (wid :: ids) wid workflow stepId c := by
  have hc : c.Apart (wid :: ids) := (hwf.feed hf).1
  have hown : wid ∈ wid :: ids := List.mem_cons_self
  refine ⟨hc, hown, fun d hd => ?_⟩
  have hload : d.store.load wid = store.load wid := hd wid hown
  rw [← hload] at hf
  rw [Body.finish_all hf, Body.finish_live (Nat.le_refl _)]
  -- the result recorded, the body comes to the same place by replay
  refine Option.bind_congr fun r hr => ?_
  have hkeep : r.2.store.load wid = d.store.load wid := Closure.finish_load c hc hr wid hown
  have hsnoc := Body.feed_snoc hf (d.store.load wid).length r.1
  rw [← hkeep, ← Durable.load_append] at hsnoc
  rw [Body.finish_all hsnoc, Durable.length_append, hkeep]

/-- The child has returned, and the closure goes on. -/
theorem InClosure.resume {w : String} (hc : InClosure store ids w workflow stepId (.run wid child k))
    (hreply : ∀ d : Durable σ α, d.store.load wid = store.load wid →
      child.finish wid 0 d = some (reply, d)) :
    InClosure store (wid :: ids) w workflow stepId (k reply) := by
  refine ⟨hc.apart.2.2 reply, List.mem_cons_of_mem _ hc.own, fun d hd => ?_⟩
  have hsub : ids ⊆ wid :: ids := List.subset_cons_self _ _
  rw [hc.finish d (hd.mono hsub), Closure.finish, hreply d (hd wid List.mem_cons_self),
    Option.bind_some]

theorem Stack.apart (hs : Stack wid₀ root store ids wid workflow outer) :
    wid ∉ ids ∧ workflow.Apart (wid :: ids) := by
  cases hs with
  | nil h => exact ⟨List.not_mem_nil, h⟩
  | cons hs hctx hids hc => exact ⟨hc.apart.1, hc.apart.2.1⟩

theorem Stack.mono (hs : Stack wid₀ root store ids wid workflow outer)
    (h : Agrees ids store store') : Stack wid₀ root store' ids wid workflow outer := by
  induction hs with
  | nil hroot => exact .nil hroot
  | @cons ids ids' w wid child p outer hs hctx hids hc ih =>
    refine .cons (ih (h.mono hids)) ?_ hids (hc.mono h)
    rw [hctx, h w hc.own]

/-- What the outermost workflow finishes with is a function of what the innermost does. -/
theorem Stack.finish (hs : Stack wid₀ root store ids wid workflow outer) :
    ∃ g : Option (Reply ε α × Durable σ α) → Option (Reply ε α × Durable σ α),
      ∀ d : Durable σ α, Agrees ids store d.store →
        root.finish wid₀ 0 d = g (workflow.finish wid 0 d) := by
  induction hs with
  | nil h => exact ⟨id, fun d _ => rfl⟩
  | @cons ids ids' w wid child p outer hs hctx hids hc ih =>
    obtain ⟨g, hg⟩ := ih
    refine ⟨fun x => g ((x.bind fun r => (p.k r.1).finish w r.2).bind fun r =>
      p.workflow.finish w 0 (r.2.append w p.stepId r.1)), fun d hd => ?_⟩
    rw [hg d (hd.mono hids), hc.finish d hd, Closure.finish]

/-- Every history is kept, and may be continued. -/
def Grows (store store' : HistoryStore α) : Prop := ∀ id, store.load id <+: store'.load id

theorem Grows.refl (store : HistoryStore α) : Grows store store := fun _ => List.prefix_rfl

theorem Grows.trans {store'' : HistoryStore α} (h : Grows store store')
    (h' : Grows store' store'') : Grows store store'' := fun id => (h id).trans (h' id)

/-- A small step from a machine with `store` to `m` keeps the invariant, and every history. -/
structure Keeps (wid₀ : String) (root : Body σ ε α) (e : Option (Reply ε α × Durable σ α))
    (store : HistoryStore α) (m : Machine σ ε α) : Prop where
  aligned : Aligned wid₀ root e m
  grows : Grows store m.durable.store

/-- Body code that ends: the body is entered again, or its run ends. -/
theorem Keeps.micro_ret (he : root.finish wid₀ 0 d = e)
    (hs : Stack wid₀ root d.store ids wid workflow outer)
    (hb : InBody d.store wid workflow i (.ret reply)) :
    Keeps wid₀ root e d.store
      (micro ⟨d, .running ⟨workflow, ⟨wid, d.store.load wid, i⟩, .body (.ret reply)⟩ outer⟩) := by
  by_cases hr : reply = .error .replay
  · subst hr
    rw [micro_replay]
    exact ⟨.running he hs (InBody.fed (Nat.zero_le _) rfl), Grows.refl _⟩
  · cases hs with
    | nil hroot =>
      rw [micro_return hr]
      exact ⟨.returned he (he ▸ hb.returned hr rfl), Grows.refl _⟩
    | @cons ids ids' w wid child p outer hs hctx hids hc =>
      rw [micro_resume hr, hctx]
      have hc' := hc.resume fun d' hd' => hb.returned hr hd'
      exact ⟨.running he hs ⟨rfl, _, fun id hid => List.mem_cons_of_mem _ (hids hid), hc'⟩, Grows.refl _⟩

/-- Body code that calls `step`: it is answered, or the closure is called. -/
theorem Keeps.micro_step {k : α → Body σ ε α} (he : root.finish wid₀ 0 d = e)
    (hs : Stack wid₀ root d.store ids wid workflow outer) (hi : i ≤ (d.store.load wid).length)
    (hf : workflow.feed ((d.store.load wid).take i) = some (.step stepId c k)) :
    Keeps wid₀ root e d.store
      (micro ⟨d, .running ⟨workflow, ⟨wid, d.store.load wid, i⟩, .body (.step stepId c k)⟩
        outer⟩) := by
  obtain ⟨-, hwf⟩ := hs.apart
  rcases Nat.lt_or_eq_of_le hi with hlt | rfl
  · have hev : (d.store.load wid)[i]? = some (d.store.load wid)[i] := List.getElem?_eq_getElem hlt
    by_cases hid : (d.store.load wid)[i].stepId = stepId
    · have hfeed := Body.feed_snoc hf (d.store.load wid)[i].seq (d.store.load wid)[i].result
      rw [micro_served hev hid]
      refine ⟨.running he hs (InBody.fed hlt ?_), Grows.refl _⟩
      subst hid
      rw [List.take_add_one, hev]
      exact hfeed
    · -- the run ends with the report, whatever the histories of the other ids are
      rw [micro_mismatch (WorkflowContext.serve_mismatch hev hid)]
      refine ⟨.running he hs (InBody.reported fun d' hd' => ?_), Grows.refl _⟩
      rw [← hd'] at hi hf
      rw [Body.finish_take hi hf, Body.finish_mismatch]
      rw [hd']
      exact WorkflowContext.serve_mismatch hev hid
  · rw [micro_call (Nat.le_refl _)]
    rw [List.take_length] at hf
    have hsub : ids ⊆ wid :: ids := List.subset_cons_self _ _
    exact ⟨.running he hs ⟨rfl, _, hsub, .of_feed hwf hf⟩, Grows.refl _⟩

/-- The result of a closure is recorded. -/
theorem Aligned.record {ids' : List String} {v : α} {d₁ : Durable σ α}
    (he : root.finish wid₀ 0 d = e) (hs : Stack wid₀ root d.store ids wid workflow outer)
    (hc : InClosure d.store ids' wid workflow stepId c) (hv : c.finish wid d = some (v, d₁))
    (hstore : d₁.store = d.store) :
    Aligned wid₀ root e ⟨d₁.append wid stepId v, .running ⟨workflow,
      ⟨wid, (d₁.append wid stepId v).store.load wid, i⟩, .body (.ret (.error .replay))⟩ outer⟩ := by
  obtain ⟨hnot, -⟩ := hs.apart
  have hagrees : Agrees ids d.store (d₁.append wid stepId v).store := by
    intro id hid
    have hne : id ≠ wid := fun heq => hnot (heq ▸ hid)
    rw [Durable.load_append_of_ne _ hne, hstore]
  obtain ⟨g, hg⟩ := hs.finish
  have hself := hc.finish d fun _ _ => rfl
  rw [hv, Option.bind_some] at hself
  have he' : root.finish wid₀ 0 (d₁.append wid stepId v) = e := by
    rw [hg _ hagrees, ← hself, ← hg d fun _ _ => rfl, he]
  exact .running he' (hs.mono hagrees) InBody.replay

/-- A step closure that returns. -/
theorem Keeps.micro_record (he : root.finish wid₀ 0 d = e)
    (hs : Stack wid₀ root d.store ids wid workflow outer) {ids' : List String}
    (hc : InClosure d.store ids' wid workflow stepId c) {v : α} {d₁ : Durable σ α}
    (hv : c.finish wid d = some (v, d₁)) (hrun : ∀ wid' child k, c ≠ .run wid' child k) :
    Keeps wid₀ root e d.store (micro ⟨d, .running ⟨workflow,
      ⟨wid, d.store.load wid, (d.store.load wid).length⟩, .closure stepId c⟩ outer⟩) := by
  obtain ⟨hmicro, hstore⟩ := Children.micro_record hv hrun
  rw [hmicro]
  refine ⟨.record he hs hc hv hstore, ?_⟩
  rw [← hstore]
  exact Durable.prefix_append d₁ wid stepId v

/-- A step closure: it runs a child, or it returns and its result is recorded. -/
theorem Keeps.micro_closure (he : root.finish wid₀ 0 d = e)
    (hs : Stack wid₀ root d.store ids wid workflow outer) {ids' : List String} (hids : ids ⊆ ids')
    (hc : InClosure d.store ids' wid workflow stepId c) :
    Keeps wid₀ root e d.store (micro ⟨d, .running ⟨workflow,
      ⟨wid, d.store.load wid, (d.store.load wid).length⟩, .closure stepId c⟩ outer⟩) := by
  cases c with
  | leaf f => exact .micro_record he hs hc rfl nofun
  | ret result => exact .micro_record he hs hc rfl nofun
  | run wid' child k =>
    rw [micro_run]
    exact ⟨.running he (.cons hs rfl hids hc) (InBody.fed (Nat.zero_le _) rfl), Grows.refl _⟩

theorem Aligned.micro {m : Machine σ ε α} (hm : Aligned wid₀ root e m) :
    Keeps wid₀ root e m.durable.store (micro m) := by
  cases hm with
  | returned he h => exact ⟨.returned he h, Grows.refl _⟩
  | @running d ids wid workflow i place outer he hs hp =>
    cases place with
    | body b =>
      cases b with
      | ret reply => exact .micro_ret he hs hp
      | step stepId c k =>
        cases hp with
        | fed hi hf => exact .micro_step he hs hi hf
    | closure stepId c =>
      obtain ⟨rfl, ids', hids, hc⟩ := hp
      exact .micro_closure he hs hids hc

theorem Aligned.iterate {m : Machine σ ε α} (hm : Aligned wid₀ root e m) (n : ℕ) :
    Keeps wid₀ root e m.durable.store (Children.micro^[n] m) := by
  apply Function.Iterate.rec (Keeps wid₀ root e m.durable.store) ⟨hm, Grows.refl _⟩
  intro m' h
  have hstep := h.aligned.micro
  exact ⟨hstep.aligned, h.grows.trans hstep.grows⟩

/-- What the invariant says of the state that it holds in. -/
theorem Aligned.finish {m : Machine σ ε α} (hm : Aligned wid₀ root e m) :
    root.finish wid₀ 0 m.durable = e := by
  cases hm with
  | running he hs hp => exact he
  | returned he h => exact he

end Invariant

/-- A body walks along the recorded events. -/
theorem leads_feed {b b' : Body σ ε α} {h : List (HistoryEvent α)} (hf : b.feed h = some b')
    {wid : String} {history : List (HistoryEvent α)} {i : ℕ} (hp : h <+: history.drop i)
    (d : Durable σ α) (workflow : Body σ ε α) (outer : List (Waiting σ ε α)) :
    Leads micro ⟨d, .running ⟨workflow, ⟨wid, history, i⟩, .body b⟩ outer⟩
      ⟨d, .running ⟨workflow, ⟨wid, history, i + h.length⟩, .body b'⟩ outer⟩ := by
  induction h generalizing b i with
  | nil =>
    obtain rfl := Option.some.inj hf
    exact Leads.refl _
  | cons ev h ih =>
    obtain ⟨c, k, rfl, hf'⟩ := Body.feed_cons hf
    obtain ⟨hev, hp⟩ := of_prefix_drop hp
    have hrest := ih hf' hp
    rw [Nat.add_assoc, Nat.add_comm 1] at hrest
    exact .head (micro_served hev rfl) hrest

/-- After a step is recorded, the body comes back to where it was by replay. -/
theorem leads_replay {workflow : Body σ ε α} {wid stepId : String} {d : Durable σ α}
    {c : Closure σ ε α} {k : α → Body σ ε α}
    (hf : workflow.feed (d.store.load wid) = some (.step stepId c k)) (d₁ : Durable σ α) (v : α)
    (hload : d₁.store.load wid = d.store.load wid) (i : ℕ) (outer : List (Waiting σ ε α)) :
    workflow.feed ((d₁.append wid stepId v).store.load wid) = some (k v) ∧
    Leads micro ⟨d₁.append wid stepId v, .running ⟨workflow,
        ⟨wid, (d₁.append wid stepId v).store.load wid, i⟩, .body (.ret (.error .replay))⟩ outer⟩
      ⟨d₁.append wid stepId v, .running ⟨workflow, ⟨wid, (d₁.append wid stepId v).store.load wid,
        (d.store.load wid).length + 1⟩, .body (k v)⟩ outer⟩ := by
  have hfeed := Body.feed_snoc hf (d.store.load wid).length v
  rw [← hload, ← Durable.load_append] at hfeed
  have hlen := Durable.length_append d₁ wid stepId v
  rw [hload] at hlen
  refine ⟨hfeed, .head micro_replay ?_⟩
  rw [← hlen, ← Nat.zero_add ((d₁.append wid stepId v).store.load wid).length]
  exact leads_feed hfeed List.prefix_rfl _ workflow outer

mutual

/-- **A body that finishes gets there**, from where the recorded events have led it. -/
theorem Body.leads : ∀ (b : Body σ ε α) ⦃ids : List String⦄ ⦃wid : String⦄ ⦃i : ℕ⦄
    ⦃d d' : Durable σ α⦄ ⦃reply : Reply ε α⦄ ⦃workflow : Body σ ε α⦄ (outer : List (Waiting σ ε α)),
    b.Apart ids → wid ∈ ids → i ≤ (d.store.load wid).length →
    workflow.feed ((d.store.load wid).take i) = some b → b.finish wid i d = some (reply, d') →
    reply ≠ .error .replay ∧ ∃ i', Leads micro
      ⟨d, .running ⟨workflow, ⟨wid, d.store.load wid, i⟩, .body b⟩ outer⟩
      ⟨d', .running ⟨workflow, ⟨wid, d'.store.load wid, i'⟩, .body (.ret reply)⟩ outer⟩
  | .ret reply => by
    intro ids wid i d d' reply' workflow outer _ _ _ _ h
    obtain ⟨hr, rfl, rfl⟩ := Body.finish_ret_eq_some h
    exact ⟨hr, i, Leads.refl _⟩
  | .step stepId c k => by
    intro ids wid i d d' reply workflow outer ⟨hc, hk⟩ hwid hi hf h
    rcases Body.finish_step_cases h with ⟨ev, hev, hid, h⟩ | ⟨message, ctx, hserve, rfl, rfl⟩ |
      ⟨hend, v, d₁, h₁, h⟩
    · have hlt : i < (d.store.load wid).length := (List.getElem?_eq_some_iff.mp hev).1
      have hfeed : workflow.feed ((d.store.load wid).take (i + 1)) = some (k ev.result) := by
        have hsnoc := Body.feed_snoc hf ev.seq ev.result
        subst hid
        rw [List.take_add_one, hev]
        exact hsnoc
      obtain ⟨hr, i', hrest⟩ := Body.leads (k ev.result) outer (hk _) hwid hlt hfeed h
      exact ⟨hr, i', .head (micro_served hev hid) hrest⟩
    · refine ⟨nofun, i, ?_⟩
      have hctx := (serve_cases hserve).resolve_left (by rintro ⟨ev, -, -, hr, -⟩; cases hr)
      obtain ⟨message', -, rfl⟩ := hctx
      exact .of_step (micro_mismatch hserve)
    · -- the closure is called, its result recorded, and the body run again up to here
      obtain rfl : i = (d.store.load wid).length := Nat.le_antisymm hi hend
      rw [List.take_length] at hf
      have hload : d₁.store.load wid = d.store.load wid := Closure.finish_load c hc h₁ wid hwid
      obtain ⟨hfeed, hreplay⟩ := leads_replay hf d₁ v hload (d.store.load wid).length outer
      have hlen := Durable.length_append d₁ wid stepId v
      rw [hload] at hlen
      have htake : workflow.feed (((d₁.append wid stepId v).store.load wid).take
          ((d.store.load wid).length + 1)) = some (k v) := by
        rwa [← hlen, List.take_length]
      obtain ⟨hr, i', hrest⟩ := Body.leads (k v) outer (hk v) hwid (Nat.le_of_eq hlen.symm) htake h
      have hcall := Closure.leads c workflow stepId outer hc hwid h₁
      exact ⟨hr, i', .head (micro_call (Nat.le_refl _)) ((hcall.trans hreplay).trans hrest)⟩

theorem Closure.leads : ∀ (c : Closure σ ε α) ⦃ids : List String⦄ ⦃wid : String⦄
    ⦃d d' : Durable σ α⦄ ⦃v : α⦄ (workflow : Body σ ε α) (stepId : String)
    (outer : List (Waiting σ ε α)), c.Apart ids → wid ∈ ids → c.finish wid d = some (v, d') → Leads micro
      ⟨d, .running ⟨workflow, ⟨wid, d.store.load wid, (d.store.load wid).length⟩,
        .closure stepId c⟩ outer⟩
      ⟨d'.append wid stepId v, .running ⟨workflow, ⟨wid, (d'.append wid stepId v).store.load wid,
        (d.store.load wid).length⟩, .body (.ret (.error .replay))⟩ outer⟩
  | .leaf f => by
    intro ids wid d d' v workflow stepId outer _ _ h
    exact .of_step (micro_record h nofun).1
  | .ret result => by
    intro ids wid d d' v workflow stepId outer _ _ h
    exact .of_step (micro_record h nofun).1
  | .run wid' child k => by
    intro ids wid d d' v workflow stepId outer ⟨hnot, hchild, hk⟩ hwid h
    obtain ⟨⟨reply, d₁⟩, h₁, h₂⟩ := Option.bind_eq_some_iff.mp h
    have hne : wid ≠ wid' := fun heq => hnot (heq ▸ hwid)
    have hwid' : wid ∈ wid' :: ids := List.mem_cons_of_mem _ hwid
    have hload : d₁.store.load wid = d.store.load wid :=
      Body.finish_load child hchild h₁ wid hwid' hne
    obtain ⟨hr, i', hinner⟩ := Body.leads child
      (⟨workflow, ⟨wid, d.store.load wid, (d.store.load wid).length⟩, stepId, k⟩ :: outer) hchild
      List.mem_cons_self (Nat.zero_le _) rfl h₁
    have hrest := Closure.leads (k reply) workflow stepId outer (hk reply) hwid' h₂
    rw [hload] at hrest
    exact .head micro_run (hinner.trans (.head (micro_resume hr _) hrest))

end

end Children

end DurableExecution
