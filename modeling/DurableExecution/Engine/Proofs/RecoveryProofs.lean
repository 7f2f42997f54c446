import Mathlib.Data.List.Nodup
import DurableExecution.Engine.Proofs.ChildrenProofs
import DurableExecution.Engine.Proofs.CrashProofs

/-!
# Proofs: child workflows recover

Attempts that are cut short and the attempt after them do together what one attempt does, each leaf
is called once, and what they do is the straight-through execution. The last section shows that the
small steps are those of `Engine.run`.
-/

namespace DurableExecution

namespace Children

open Steps

variable {σ ε α : Type}

/-! ## The leaves -/

/-- No leaf has been called twice, and every call is recorded. -/
structure Once (d : Durable σ α) : Prop where
  nodup : d.invoked.Nodup
  recorded : ∀ x ∈ d.invoked, x.2 < (d.store.load x.1).length

theorem Once.append {d : Durable σ α} (hd : Once d) (wid stepId : String) (v : α) :
    Once (d.append wid stepId v) :=
  ⟨hd.nodup, fun x hx =>
    Nat.lt_of_lt_of_le (hd.recorded x hx) (d.prefix_append wid stepId v x.1).length_le⟩

/-- A leaf is called, and its result recorded. -/
theorem Once.invoke {d : Durable σ α} (hd : Once d) (wid : String) (f : σ → α × σ) (stepId : String)
    (v : α) : Once ((d.invoke wid f).2.append wid stepId v) := by
  have hnew : (wid, (d.store.load wid).length) ∉ d.invoked := fun hx =>
    Nat.lt_irrefl _ (hd.recorded _ hx)
  constructor
  · apply List.Nodup.append hd.nodup (List.nodup_singleton _)
    intro x hx hx'
    rw [List.mem_singleton] at hx'
    exact hnew (hx' ▸ hx)
  · intro x hx
    rcases List.mem_append.mp hx with hx | hx
    · exact (hd.append wid stepId v).recorded x hx
    · obtain rfl := List.mem_singleton.mp hx
      rw [Durable.length_append]
      exact Nat.lt_succ_self _

mutual

theorem Body.finish_once : ∀ (b : Body σ ε α) ⦃wid : String⦄ ⦃i : ℕ⦄ ⦃d d' : Durable σ α⦄
    ⦃reply : Reply ε α⦄, Once d → b.finish wid i d = some (reply, d') → Once d'
  | .ret reply => by
    intro wid i d d' reply' hd h
    obtain ⟨-, -, rfl⟩ := Body.finish_ret_eq_some h
    exact hd
  | .step stepId c k => by
    intro wid i d d' reply hd h
    rcases Body.finish_step_cases h with ⟨ev, -, -, h⟩ | ⟨-, -, -, -, rfl⟩ | ⟨-, v, d₁, h₁, h⟩
    · exact Body.finish_once (k ev.result) hd h
    · exact hd
    · exact Body.finish_once (k v) (Closure.finish_once c hd h₁ stepId v) h

/-- The last leaf that a closure has called is recorded with the step of the closure. -/
theorem Closure.finish_once : ∀ (c : Closure σ ε α) ⦃wid : String⦄ ⦃d d' : Durable σ α⦄ ⦃v : α⦄,
    Once d → c.finish wid d = some (v, d') → ∀ stepId v', Once (d'.append wid stepId v')
  | .leaf f => by
    intro wid d d' v hd h stepId v'
    obtain ⟨-, rfl⟩ := Prod.mk.inj (Option.some.inj h)
    exact hd.invoke wid f stepId v'
  | .ret result => by
    intro wid d d' v hd h stepId v'
    obtain ⟨-, rfl⟩ := Prod.mk.inj (Option.some.inj h)
    exact hd.append wid stepId v'
  | .run wid' child k => by
    intro wid d d' v hd h
    obtain ⟨⟨reply, d₁⟩, h₁, h₂⟩ := Option.bind_eq_some_iff.mp h
    exact Closure.finish_once (k reply) (Body.finish_once child hd h₁) h₂

end

mutual

/-- A body that makes up no `replay` finishes. -/
theorem Body.NoReplay.finishes : ∀ {b : Body σ ε α}, b.NoReplay → ∀ (wid : String) (i : ℕ)
    (d : Durable σ α), ∃ r, b.finish wid i d = some r
  | .ret reply, hb, wid, i, d => ⟨_, Body.finish_ret hb wid i d⟩
  | .step stepId c k, hb, wid, i, d => by
    cases hserve : ((⟨wid, d.store.load wid, i⟩ : WorkflowContext α).serve stepId :
        Option (Reply ε α × WorkflowContext α)) with
    | none =>
      obtain ⟨⟨v, d₁⟩, h₁⟩ := Closure.NoReplay.finishes hb.1 wid d
      rw [Body.finish_live (WorkflowContext.serve_eq_none_iff.mp hserve), h₁]
      exact Body.NoReplay.finishes (hb.2 v) wid (i + 1) _
    | some p =>
      rcases serve_cases hserve with ⟨ev, hev, hid, -, -⟩ | ⟨message, hreply, -⟩
      · rw [Body.finish_served hev hid]
        exact Body.NoReplay.finishes (hb.2 ev.result) wid (i + 1) d
      · obtain ⟨reply, ctx⟩ := p
        obtain rfl : reply = _ := hreply
        exact ⟨_, Body.finish_mismatch hserve⟩

theorem Closure.NoReplay.finishes : ∀ {c : Closure σ ε α}, c.NoReplay → ∀ (wid : String)
    (d : Durable σ α), ∃ r, c.finish wid d = some r
  | .leaf f, _, wid, d => ⟨_, rfl⟩
  | .ret result, _, wid, d => ⟨_, rfl⟩
  | .run wid' child k, hc, wid, d => by
    obtain ⟨⟨reply, d₁⟩, h₁⟩ := Body.NoReplay.finishes hc.1 wid' 0 d
    rw [Closure.finish, h₁]
    exact Closure.NoReplay.finishes (hc.2 reply) wid d₁

end

/-! ## Straight-through executions -/

mutual

/-- The straight-through execution leaves the other histories alone. -/
theorem Body.straight_load : ∀ (b : Body σ ε α) ⦃wid id : String⦄ ⦃d : Durable σ α⦄, id ≠ wid →
    id ∉ b.ran wid d → (b.straight wid d).2.store.load id = d.store.load id
  | .ret reply => fun _ _ _ _ _ => rfl
  | .step stepId c k => by
    intro wid id d hne hran
    have hran := fun h => hran (List.mem_append.mpr h)
    simp only [Body.straight]
    rw [Body.straight_load (k _) hne fun h => hran (Or.inr h), Durable.load_append_of_ne _ hne]
    exact Closure.straight_load c fun h => hran (Or.inl h)

theorem Closure.straight_load : ∀ (c : Closure σ ε α) ⦃wid id : String⦄ ⦃d : Durable σ α⦄,
    id ∉ c.ran wid d → (c.straight wid d).2.store.load id = d.store.load id
  | .leaf f => fun _ _ _ _ => rfl
  | .ret result => fun _ _ _ _ => rfl
  | .run wid' child k => by
    intro wid id d hran
    obtain ⟨hne, hran⟩ := List.ne_and_not_mem_of_not_mem_cons hran
    have hran := fun h => hran (List.mem_append.mpr h)
    simp only [Closure.straight]
    rw [Closure.straight_load (k _) fun h => hran (Or.inr h)]
    exact Body.straight_load child hne fun h => hran (Or.inl h)

end

mutual

/-- Where the workflow ids are pairwise distinct and their histories empty, what a body does is the
straight-through execution: no step is served. -/
theorem Body.finish_straight : ∀ (b : Body σ ε α) ⦃wid : String⦄ ⦃d : Durable σ α⦄, b.NoReplay →
    wid ∉ b.ran wid d → (b.ran wid d).Nodup → (∀ id ∈ b.ran wid d, d.store.load id = []) →
    b.finish wid (d.store.load wid).length d = some (b.straight wid d)
  | .ret reply => fun wid d hb _ _ _ => Body.finish_ret hb wid _ d
  | .step stepId c k => by
    intro wid d hb hwid hnodup hfresh
    obtain ⟨hc, hk, hdisjoint⟩ := List.nodup_append'.mp hnodup
    have hwid := fun h => hwid (List.mem_append.mpr h)
    have hfresh := fun id h => hfresh id (List.mem_append.mpr h)
    have hclosure := Closure.finish_straight c hb.1 (fun h => hwid (Or.inl h)) hc
      fun id h => hfresh id (Or.inl h)
    have hload : (c.straight wid d).2.store.load wid = d.store.load wid :=
      Closure.straight_load c fun h => hwid (Or.inl h)
    rw [Body.finish_live (Nat.le_refl _), hclosure, Option.bind_some, ← hload,
      ← Durable.length_append _ wid stepId (c.straight wid d).1]
    refine Body.finish_straight (k _) (hb.2 _) (fun h => hwid (Or.inr h)) hk fun id h => ?_
    have hne : id ≠ wid := fun heq => hwid (Or.inr (heq ▸ h))
    rw [Durable.load_append_of_ne _ hne, Closure.straight_load c fun h' => hdisjoint h' h]
    exact hfresh id (Or.inr h)

theorem Closure.finish_straight : ∀ (c : Closure σ ε α) ⦃wid : String⦄ ⦃d : Durable σ α⦄, c.NoReplay →
    wid ∉ c.ran wid d → (c.ran wid d).Nodup → (∀ id ∈ c.ran wid d, d.store.load id = []) →
    c.finish wid d = some (c.straight wid d)
  | .leaf f => fun _ _ _ _ _ _ => rfl
  | .ret result => fun _ _ _ _ _ _ => rfl
  | .run wid' child k => by
    intro wid d hc hwid hnodup hfresh
    obtain ⟨hwid', hnodup⟩ := List.nodup_cons.mp hnodup
    obtain ⟨hchild, hk, hdisjoint⟩ := List.nodup_append'.mp hnodup
    obtain ⟨-, hwid⟩ := List.ne_and_not_mem_of_not_mem_cons hwid
    have hwid' := fun h => hwid' (List.mem_append.mpr h)
    have hfresh' := fun id h => hfresh id (List.mem_cons_of_mem _ (List.mem_append.mpr h))
    have hbody := Body.finish_straight child hc.1 (fun h => hwid' (Or.inl h)) hchild
      fun id h => hfresh' id (Or.inl h)
    rw [hfresh wid' List.mem_cons_self, List.length_nil] at hbody
    rw [Closure.finish, hbody, Option.bind_some]
    refine Closure.finish_straight (k _) (hc.2 _) (fun h => hwid (List.mem_append_right _ h)) hk
      fun id h => ?_
    have hne : id ≠ wid' := fun heq => hwid' (Or.inr (heq ▸ h))
    rw [Body.straight_load child hne fun h' => hdisjoint h' h]
    exact hfresh' id (Or.inr h)

end

/-! ## Crashes -/

/-- A script: all its closures are leaves. -/
def Body.ofScript : Script σ ε α → Body σ ε α
  | .ret reply => .ret reply
  | .step stepId f k => .step stepId (.leaf f) fun v => ofScript (k v)

/-- What is left of a script. -/
def Body.ofState : Script σ ε α ⊕ WorkflowError ε → Body σ ε α
  | .inl s => ofScript s
  | .inr e => .ret (.error e)

section Engine

variable {w : Script σ ε α} {wid : String} {engine : Engine} {store : HistoryStore α} {world : σ}
  {s : Script σ ε α ⊕ WorkflowError ε} {ctx : WorkflowContext α}

theorem Body.ofState_ret {reply : Reply ε α} (hs : w.toWorkflow.next s = .ret reply) :
    Body.ofState s = .ret reply := by
  rcases s with (reply' | ⟨stepId, f, k⟩) | e
  · cases hs
    rfl
  · cases hs
  · cases hs
    rfl

/-- The small steps of one call of `step`. -/
theorem leads_of_stepCall (workflow : Body σ ε α) (invoked : List (String × ℕ)) {stepId : String}
    {f : StepFn σ ε α} {k : Reply ε α → Script σ ε α ⊕ WorkflowError ε} {r : Stepped σ ε α}
    (hs : w.toWorkflow.next s = .step stepId f k)
    (hr : ctx.step .rust engine stepId f store world = r) : Leads micro
      ⟨⟨store, world, invoked⟩, .running ⟨workflow, ctx, .body (.ofState s)⟩ []⟩
      ⟨⟨r.store, r.world, invoked ++ if r.invoked then [(ctx.wid, ctx.cursor)] else []⟩,
        .running ⟨workflow, r.context, .body (.ofState (k r.reply))⟩ []⟩ ∧
      r.context.wid = ctx.wid := by
  rcases s with s | e
  · obtain ⟨g, j, rfl, rfl, hok, herror⟩ := Script.of_next_step hs
    subst hr
    cases hserve : (ctx.serve stepId : Option (Reply ε α × WorkflowContext α)) with
    | none =>
      have hend := WorkflowContext.serve_eq_none_iff.mp hserve
      have hg : (fun world => (.ok (g world).1, (g world).2) : StepFn σ ε α) world =
          (.ok (g world).1, (g world).2) := rfl
      generalize (fun world => (.ok (g world).1, (g world).2) : StepFn σ ε α) = f at hg ⊢
      rw [step_of_ok .rust engine stepId hend hg store, herror]
      exact ⟨.head (micro_call hend) (.of_step rfl), rfl⟩
    | some p =>
      obtain ⟨reply, ctx'⟩ := p
      have hframe := (WorkflowContext.serve_frame hserve).1
      rw [WorkflowContext.step, hserve]
      rcases serve_cases hserve with ⟨ev, hev, hid, rfl, rfl⟩ | ⟨message, rfl, -⟩
      · rw [hok]
        refine ⟨.of_step ?_, hframe⟩
        simpa [Body.ofState, Body.ofScript] using micro_served hev hid
      · rw [herror]
        refine ⟨.of_step ?_, hframe⟩
        simpa [Body.ofState, Body.ofScript] using micro_mismatch hserve
  · cases hs

/-- The small steps of one execution. -/
theorem leads_of_executes (workflow : Body σ ε α) {x : Execution σ ε α}
    (h : Executes w.toWorkflow .rust engine s ctx store world x) (hwid : ctx.wid = wid)
    (invoked : List (String × ℕ)) : Leads micro
      ⟨⟨store, world, invoked⟩, .running ⟨workflow, ctx, .body (.ofState s)⟩ []⟩
      ⟨⟨x.store, x.world, invoked ++ (invokedPositions x.calls).map (wid, ·)⟩,
        .running ⟨workflow, x.context, .body (.ret x.reply)⟩ []⟩ ∧ x.context.wid = wid := by
  induction h using Executes.induct generalizing invoked with
  | ret hs hx =>
    rw [Body.ofState_ret hs]
    exact ⟨by simpa [invokedPositions] using Leads.refl _, hwid⟩
  | @step s ctx store world stepId f k r y hs hr hy hx ih =>
    obtain ⟨hstep, hwid'⟩ := leads_of_stepCall workflow invoked hs hr
    obtain ⟨hrest, hwid''⟩ := ih (hwid'.trans hwid)
      (invoked ++ if r.invoked then [(ctx.wid, ctx.cursor)] else [])
    refine ⟨hstep.trans ?_, hwid''⟩
    cases hinv : r.invoked <;> simpa [hinv, hwid, invokedPositions] using hrest

/-- **The engine and the small steps**: where all closures are leaves, an attempt that is not cut
leaves behind what `run` does. -/
theorem returns_of_runs {o : Outcome σ ε α} (h : Runs w.toWorkflow .rust wid engine store world o)
    (invoked : List (String × ℕ)) : Returns wid (.ofScript w) ⟨store, world, invoked⟩ o.reply
      ⟨o.store, o.world, invoked ++ o.invoked.map (wid, ·)⟩ := by
  rw [runs_iff] at h
  generalize ({ engine with wid } : Engine) = engine at h
  induction h using Loops.induct generalizing invoked with
  | @stop engine store world x hx hr =>
    have hnew : (WorkflowContext.new wid (store.load wid)).wid = wid := rfl
    have hleads := (leads_of_executes (.ofScript w) hx hnew invoked).1
    have hall : Returns wid (.ofScript w) _ _ _ := hleads.tail (micro_return hr)
    simpa [Outcome.invoked] using hall
  | @again engine store world x o hx hr ho ih =>
    have hnew : (WorkflowContext.new wid (store.load wid)).wid = wid := rfl
    obtain ⟨hleads, hwid⟩ := leads_of_executes (.ofScript w) hx hnew invoked
    have hrest : Leads micro _ _ := ih (invoked ++ (invokedPositions x.calls).map (wid, ·))
    rw [hr] at hleads
    -- the body is entered again with what is durable
    have hagain := hleads.tail micro_replay
    rw [hwid] at hagain
    have hall : Returns wid (.ofScript w) _ _ _ := hagain.trans hrest
    simpa [Outcome.invoked] using hall

end Engine

end Children

end DurableExecution
