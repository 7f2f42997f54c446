import Mathlib.Tactic.Set
import DurableExecution.Wheel.Proofs.FiringProofs

/-!
# Proofs: the order of timers with one deadline

The timers with one deadline form a queue: those that had their turn, those that are pending, those
in the bucket of the deadline, those in the overflow list. Ticks move them along the queue but never
past each other, so the order of two timers is settled when the later one is scheduled. It goes to
the end of the queue, except that a timer put into the bucket passes those that still wait in the
overflow list.
-/

namespace DurableExecution

variable {κ : Type}

namespace World

/-- The timers with deadline `D` that `p` selects, in the order in which they fire. -/
def queue (w : World κ) (pending : List (Timer κ)) (D : ℕ) (p : Timer κ → Bool) : List (Timer κ) :=
  (w.turns.map (·.timer) ++
    (pending ++ (w.wheel.bucket (D % w.wheel.slots) ++ w.wheel.overflow))).filter p

/-- `p` selects timers with deadline `D` among those that were scheduled so far. -/
structure Selects (w : World κ) (D : ℕ) (p : Timer κ → Bool) : Prop where
  deadline : ∀ t, p t = true → t.deadline = D
  created : ∀ t, p t = true → t.id < w.created

variable {env : κ → World κ → List (Act κ)} {w : World κ} {pending : List (Timer κ)} {edge D : ℕ}
  {p : Timer κ → Bool}

theorem filter_eq_nil_of (l : List (Timer κ)) (h : ∀ t ∈ l, p t = false) : l.filter p = [] := by
  rw [List.filter_eq_nil_iff]
  intro t ht
  simp [h t ht]

theorem queue_register (hpos : 0 < w.wheel.slots) (hp : w.Selects D p) (pending : List (Timer κ))
    (delay : ℕ) (callback : κ) :
    (w.register delay callback).queue pending D p = w.queue pending D p := by
  have hnext : p (w.nextTimer delay callback) = false := by
    by_contra hsel
    have := hp.created _ (by simpa using hsel)
    exact absurd this (Nat.lt_irrefl _)
  have hnew : ∀ (c : Prop) [Decidable c],
      (if c then [w.nextTimer delay callback] else []).filter p = [] := by
    intro c _
    split
    · simp [hnext]
    · rfl
  unfold queue
  rw [slots_register, bucket_register hpos, overflow_register]
  simp only [List.filter_append, hnew, List.append_nil]
  rfl

theorem Selects.mono {w' : World κ} (hp : w.Selects D p) (h : w.created ≤ w'.created) :
    w'.Selects D p :=
  ⟨hp.deadline, fun t ht => Nat.lt_of_lt_of_le (hp.created t ht) h⟩

theorem queue_acts (hw : w.Inv pending edge) (hp : w.Selects D p) (as : List (Act κ)) :
    (as.foldl act w).queue pending D p = w.queue pending D p ∧ (as.foldl act w).Selects D p := by
  induction as generalizing w with
  | nil => exact ⟨rfl, hp⟩
  | cons a as ih =>
    have hone : (w.act a).queue pending D p = w.queue pending D p ∧ (w.act a).Selects D p := by
      cases a with
      | schedule delay callback =>
        exact ⟨queue_register hw.pos hp pending delay callback, hp.mono (Nat.le_succ _)⟩
      | setCancelled id cancelled => exact ⟨rfl, hp.mono (Nat.le_refl _)⟩
    obtain ⟨hrest, hp'⟩ := ih (hw.act a).1 hone.2
    exact ⟨hrest.trans hone.1, hp'⟩

theorem queue_called (hw : w.Inv pending edge) (hp : w.Selects D p)
    (env : κ → World κ → List (Act κ)) (t : Timer κ) :
    (called env w t).queue pending D p = w.queue pending D p ∧ (called env w t).Selects D p := by
  unfold called
  split
  · exact ⟨rfl, hp⟩
  · have hcalls : ({ w with calls := w.calls ++ [⟨w.wheel.now, t⟩] } : World κ).Inv pending edge :=
      ⟨hw.pos, hw.edge_le, hw.bucket, hw.overflow, hw.due, hw.turns, hw.ids, hw.size⟩
    exact queue_acts hcalls ⟨hp.deadline, hp.created⟩ _

theorem queue_turn {t : Timer κ} (hw : w.Inv (t :: pending) edge) (hp : w.Selects D p)
    (env : κ → World κ → List (Act κ)) (fired : ℕ) :
    (turn env (fired, w) t).2.queue pending D p = w.queue (t :: pending) D p ∧
      (turn env (fired, w) t).2.Selects D p := by
  obtain ⟨hqueue, hp'⟩ := queue_called hw hp env t
  rw [turn_eq]
  refine ⟨?_, hp'.deadline, hp'.created⟩
  rw [← hqueue]
  have hmove : ((called env w t).turns ++ [turnOf env w t]).map (·.timer) ++ pending =
      (called env w t).turns.map (·.timer) ++ t :: pending := by
    simp [turnOf]
  unfold queue
  rw [← List.append_assoc, ← List.append_assoc _ (t :: pending), ← hmove]
  rfl

theorem queue_turns {due : List (Timer κ)} (hw : w.Inv due edge) (hp : w.Selects D p)
    (env : κ → World κ → List (Act κ)) (fired : ℕ) :
    (due.foldl (turn env) (fired, w)).2.queue [] D p = w.queue due D p ∧
      (due.foldl (turn env) (fired, w)).2.Selects D p := by
  induction due generalizing w fired with
  | nil => exact ⟨rfl, hp⟩
  | cons t due ih =>
    obtain ⟨hone, hp'⟩ := queue_turn hw hp env fired
    obtain ⟨hrest, hp''⟩ := ih (hw.turn env fired).1 hp' (turn env (fired, w) t).1
    exact ⟨hrest.trans hone, hp''⟩

/-- Of two filters, one keeps every selected timer and the other one none. -/
theorem filter_split (l : List (Timer κ)) {q q' : Timer κ → Bool}
    (h : (∀ t, p t = true → q t = true ∧ q' t = false) ∨ ∀ t, p t = true → q t = false ∧ q' t = true) :
    (l.filter q).filter p ++ (l.filter q').filter p = l.filter p := by
  rw [List.filter_filter, List.filter_filter]
  rcases h with h | h
  · have hall : l.filter (fun t => p t && q t) = l.filter p := by
      refine List.filter_congr fun t _ => ?_
      cases hpt : p t with
      | false => rfl
      | true => rw [(h t hpt).1]; rfl
    have hnone : l.filter (fun t => p t && q' t) = [] := by
      rw [List.filter_eq_nil_iff]
      intro t _ ht
      obtain ⟨hpt, hqt⟩ := Bool.and_eq_true_iff.mp ht
      rw [(h t hpt).2] at hqt
      cases hqt
    rw [hall, hnone, List.append_nil]
  · have hall : l.filter (fun t => p t && q' t) = l.filter p := by
      refine List.filter_congr fun t _ => ?_
      cases hpt : p t with
      | false => rfl
      | true => rw [(h t hpt).2]; rfl
    have hnone : l.filter (fun t => p t && q t) = [] := by
      rw [List.filter_eq_nil_iff]
      intro t _ ht
      obtain ⟨hpt, hqt⟩ := Bool.and_eq_true_iff.mp ht
      rw [(h t hpt).1] at hqt
      cases hqt
    rw [hall, hnone, List.nil_append]

/-- Draining the current bucket moves its timers from the bucket part of the queue to the pending
part. -/
theorem queue_drain (hw : w.Inv [] edge) (hp : w.Selects D p) {v : HierarchicalTimingWheel κ}
    (hv : v = { w.wheel with now := w.wheel.now + 1 }) :
    ({ w with wheel := v.drain.2 } : World κ).queue v.drain.1 D p = w.queue [] D p := by
  have hslots : v.slots = w.wheel.slots := by rw [hv]
  have hpos : 0 < v.slots := by rw [hslots]; exact hw.pos
  have hbucket : ∀ i, v.bucket i = w.wheel.bucket i := fun i => by rw [hv]; rfl
  have hoverflow : v.drain.2.overflow = w.wheel.overflow := by rw [hv]; rfl
  have hparts : v.drain.1.filter p ++ (v.drain.2.bucket (D % v.slots)).filter p =
      (w.wheel.bucket (D % v.slots)).filter p := by
    by_cases hi : D % v.slots = v.now % v.slots
    · rw [hi, HierarchicalTimingWheel.bucket_drain hpos, ← hbucket]
      refine filter_split _ ?_
      by_cases hD : D ≤ v.now
      · left
        intro t ht
        rw [hp.deadline t ht]
        simpa using hD
      · right
        intro t ht
        rw [hp.deadline t ht]
        simpa using hD
    · have hnone : v.drain.1.filter p = [] := by
        refine filter_eq_nil_of _ fun t ht => ?_
        have hmem := (List.mem_filter.mp ht).1
        rw [hbucket] at hmem
        by_contra hsel
        have hdeadline := hp.deadline t (by simpa using hsel)
        have hslot := (hw.bucket _ t hmem).slot
        rw [hdeadline, ← hslots] at hslot
        exact hi hslot
      rw [hnone, HierarchicalTimingWheel.bucket_drain_of_ne hi, hbucket, List.nil_append]
  unfold queue
  show List.filter p (_ ++ (v.drain.1 ++ (v.drain.2.bucket (D % v.slots) ++ v.drain.2.overflow))) = _
  rw [hoverflow]
  simp only [List.filter_append, List.nil_append]
  rw [← List.append_assoc (v.drain.1.filter p), hparts, hslots]

/-- Re-homing moves the timers of one deadline together, from the overflow part of the queue to the
end of the bucket part. -/
theorem queue_endTick (hpos : 0 < w.wheel.slots) (hp : w.Selects D p) :
    ({ w with wheel := w.wheel.endTick } : World κ).queue [] D p = w.queue [] D p := by
  obtain ⟨hslots, -, -⟩ := w.wheel.endTick_frame
  unfold queue
  show List.filter p (_ ++ ([] ++ (w.wheel.endTick.bucket (D % w.wheel.endTick.slots) ++
    w.wheel.endTick.overflow))) = _
  rw [hslots]
  by_cases hlast : w.wheel.now % w.wheel.slots = w.wheel.slots - 1
  · rw [HierarchicalTimingWheel.bucket_endTick hpos hlast,
      HierarchicalTimingWheel.overflow_endTick hlast]
    have hparts : (w.wheel.overflow.filter (w.wheel.goesTo (D % w.wheel.slots))).filter p ++
        (w.wheel.overflow.filter w.wheel.overflows).filter p = w.wheel.overflow.filter p := by
      refine filter_split _ ?_
      by_cases hD : D < w.wheel.now + w.wheel.slots
      · left
        intro t ht
        have hdeadline := hp.deadline t ht
        simp [HierarchicalTimingWheel.goesTo, HierarchicalTimingWheel.overflows, hdeadline, hD]
      · right
        intro t ht
        have hdeadline := hp.deadline t ht
        have hD' : w.wheel.now + w.wheel.slots ≤ D := by omega
        simp [HierarchicalTimingWheel.goesTo, HierarchicalTimingWheel.overflows, hdeadline, hD, hD']
    simp only [List.filter_append, List.nil_append, List.append_assoc, hparts]
  · rw [HierarchicalTimingWheel.endTick_of_ne hlast]

/-- **A tick keeps the queue.** -/
theorem queue_round (hw : w.Ok) (hp : w.Selects D p) (env : κ → World κ → List (Act κ)) :
    (round env w).2.queue [] D p = w.queue [] D p ∧ (round env w).2.Selects D p := by
  set v : HierarchicalTimingWheel κ := { w.wheel with now := w.wheel.now + 1 } with hv
  have hdrain := (Inv.drain hw hv).1
  have hqueue := queue_drain hw hp hv
  have hp' : ({ w with wheel := v.drain.2 } : World κ).Selects D p := ⟨hp.deadline, hp.created⟩
  obtain ⟨hturns, hp''⟩ := queue_turns hdrain hp' env 0
  have hpos := (hdrain.turns_foldl env 0).1.pos
  set u := v.drain.1.foldl (turn env) (0, { w with wheel := v.drain.2 }) with hu
  have hround : round env w = (u.1, { u.2 with wheel := u.2.wheel.endTick }) := rfl
  rw [hround]
  exact ⟨(queue_endTick hpos hp'').trans (hturns.trans hqueue), hp''.deadline, hp''.created⟩

theorem queue_op (hw : w.Ok) (hp : w.Selects D p) (env : κ → World κ → List (Act κ)) (o : Op κ) :
    (op env w o).queue [] D p = w.queue [] D p ∧ (op env w o).Selects D p := by
  cases o with
  | schedule delay callback =>
    by_cases hd : delay < 0
    · rw [op_schedule_of_neg env w callback hd]
      exact ⟨rfl, hp⟩
    · rw [op_schedule_of_nonneg env w callback hd]
      exact ⟨queue_register hw.pos hp [] delay.toNat callback, hp.mono (Nat.le_succ _)⟩
  | setCancelled id cancelled => exact ⟨rfl, hp.deadline, hp.created⟩
  | advance target =>
    refine (advanceLoop_induct (P := fun v => v.Ok ∧ v.queue [] D p = w.queue [] D p ∧ v.Selects D p)
      ?_ target _ 0 ⟨hw, rfl, hp⟩).2
    rintro v ⟨hv, hqueue, hp'⟩
    obtain ⟨hone, hp''⟩ := queue_round hv hp' env
    exact ⟨(hv.round env).1, hone.trans hqueue, hp''⟩

/-- **Every run keeps the queue** of the timers that are there. -/
theorem queue_run (hw : w.Ok) (hp : w.Selects D p) (env : κ → World κ → List (Act κ))
    (ops : List (Op κ)) :
    (run env w ops).queue [] D p = w.queue [] D p ∧ (run env w ops).Selects D p := by
  induction ops generalizing w with
  | nil => exact ⟨rfl, hp⟩
  | cons o ops ih =>
    obtain ⟨hone, hp'⟩ := queue_op hw hp env o
    obtain ⟨hrest, hp''⟩ := ih (hw.op env o).1 hp'
    exact ⟨hrest.trans hone, hp''⟩

/-! ## Two timers -/

/-- Selects the timers with these ids and this deadline. -/
def among (ids : List ℕ) (D : ℕ) (t : Timer κ) : Bool := t.id ∈ ids ∧ t.deadline = D

variable {A : Timer κ} {l : List (Timer κ)}

/-- Among the timers of the world, `A` is the only one with its id, and the next id is not used. -/
theorem Ok.filter_of_mem (hw : w.Ok) (hl : l.Sublist (w.timers [])) (hA : A ∈ l) :
    l.filter (among [A.id, w.created] A.deadline) = [A] := by
  have hnodup := (hl.map (·.id)).nodup hw.nodup
  rw [← filter_eq_singleton (fun t : Timer κ => t.id) hnodup hA]
  refine List.filter_congr fun t ht => ?_
  have hne : t.id ≠ w.created := Nat.ne_of_lt (hw.id_lt (hl.subset ht))
  by_cases hid : t.id = A.id
  · have heq := hw.eq_of_id (hl.subset ht) (hl.subset hA) hid
    simp [among, heq]
  · simp [among, hid, hne]

theorem Ok.filter_of_not_mem (hw : w.Ok) (hl : l.Sublist (w.timers [])) (hmem : A ∈ w.timers [])
    (hA : A ∉ l) : l.filter (among [A.id, w.created] D) = [] := by
  refine filter_eq_nil_of l fun t ht => ?_
  have hne : t.id ≠ w.created := Nat.ne_of_lt (hw.id_lt (hl.subset ht))
  have hid : t.id ≠ A.id := fun hid => hA (hw.eq_of_id (hl.subset ht) hmem hid ▸ ht)
  simp [among, hid, hne]

/-- A far timer is in the overflow list as long as a revolution is to be completed before its
deadline is reached or in the tick of its deadline. Every other timer of the wheel is in its
bucket. -/
theorem Ok.mem_overflow_iff (hw : w.Ok) (hA : A ∈ w.wheel.held) :
    A ∈ w.wheel.overflow ↔ w.wheel.slots ≤ A.delay ∧
      revolution w.wheel.slots w.wheel.now < revolution w.wheel.slots A.deadline := by
  constructor
  · intro ho
    have hplace := hw.overflow A ho
    exact ⟨hplace.far, hplace.waits⟩
  · rintro ⟨hfar, hwaits⟩
    rcases HierarchicalTimingWheel.mem_held_iff.mp hA with ⟨i, hi⟩ | ho
    · have := (hw.bucket i A hi).rehomed hfar
      omega
    · exact ho

theorem Ok.mem_bucket_iff (hw : w.Ok) (hA : A ∈ w.wheel.held) :
    A ∈ w.wheel.bucket (A.deadline % w.wheel.slots) ↔ A ∉ w.wheel.overflow := by
  constructor
  · intro hb ho
    have hfar := (hw.overflow A ho).far
    have hwaits := (hw.overflow A ho).waits
    have := (hw.bucket _ A hb).rehomed hfar
    omega
  · intro ho
    rcases HierarchicalTimingWheel.mem_held_iff.mp hA with ⟨i, hi⟩ | ho'
    · exact (hw.bucket i A hi).slot ▸ hi
    · exact absurd ho' ho

/-- Before its turn, `A` alone is selected, from the bucket or from the overflow list. -/
theorem Ok.filter_parts (hw : w.Ok) (hA : A ∈ w.wheel.held) :
    (w.turns.map (·.timer)).filter (among [A.id, w.created] A.deadline) = [] ∧
      (A ∈ w.wheel.overflow ∧
        (w.wheel.bucket (A.deadline % w.wheel.slots)).filter (among [A.id, w.created] A.deadline) = [] ∧
        w.wheel.overflow.filter (among [A.id, w.created] A.deadline) = [A] ∨
      A ∉ w.wheel.overflow ∧
        (w.wheel.bucket (A.deadline % w.wheel.slots)).filter (among [A.id, w.created] A.deadline) = [A] ∧
        w.wheel.overflow.filter (among [A.id, w.created] A.deadline) = []) := by
  have hheld : w.wheel.held.Sublist (w.timers []) := List.sublist_append_left ..
  have hmem := hheld.subset hA
  have hbucket : (w.wheel.bucket (A.deadline % w.wheel.slots)).Sublist (w.timers []) :=
    ((Buckets.get_sublist_flatten _ _).trans (List.sublist_append_left ..)).trans hheld
  have hoverflow : w.wheel.overflow.Sublist (w.timers []) :=
    (List.sublist_append_right ..).trans hheld
  have hiff := hw.mem_bucket_iff hA
  constructor
  · refine hw.filter_of_not_mem (List.sublist_append_right ..) hmem fun ht => ?_
    have hnodup := List.Nodup.of_map _ hw.nodup
    exact (List.disjoint_of_nodup_append hnodup) hA (List.mem_append_right _ ht)
  · by_cases ho : A ∈ w.wheel.overflow
    · have hb : A ∉ w.wheel.bucket (A.deadline % w.wheel.slots) := fun hb => hiff.mp hb ho
      exact Or.inl ⟨ho, hw.filter_of_not_mem hbucket hmem hb, hw.filter_of_mem hoverflow ho⟩
    · exact Or.inr ⟨ho, hw.filter_of_mem hbucket (hiff.mpr ho),
        hw.filter_of_not_mem hoverflow hmem ho⟩

/-- A timer that is scheduled next and has the deadline of `A` goes to the end of the queue, except
that it passes `A` when it is put into the bucket while `A` is in the overflow list. -/
theorem queue_scheduled (hw : w.Ok) (hA : A ∈ w.wheel.held) (delay : ℕ) (callback : κ)
    (hD : A.deadline = w.wheel.now + delay) :
    (w.register delay callback).queue [] A.deadline (among [A.id, w.created] A.deadline) =
      if w.wheel.slots ≤ A.delay ∧ delay < w.wheel.slots ∧
          revolution w.wheel.slots w.wheel.now < revolution w.wheel.slots A.deadline then
        [w.nextTimer delay callback, A]
      else [A, w.nextTimer delay callback] := by
  obtain ⟨hturns, hparts⟩ := hw.filter_parts hA
  have hiff := hw.mem_overflow_iff hA
  set p : Timer κ → Bool := among [A.id, w.created] A.deadline with hp
  have hB : [w.nextTimer delay callback].filter p = [w.nextTimer delay callback] := by
    simp [hp, among, nextTimer, hD]
  have hturns' : (w.register delay callback).turns = w.turns := rfl
  unfold queue
  rw [slots_register, bucket_register hw.pos, overflow_register, hturns', ← hD]
  simp only [List.filter_append, List.nil_append, hturns]
  rcases hparts with ⟨ho, hb, hov⟩ | ⟨ho, hb, hov⟩
  · obtain ⟨hfar, hwaits⟩ := hiff.mp ho
    rw [hb, hov]
    by_cases hd : delay < w.wheel.slots
    · rw [if_pos ⟨hd, trivial⟩, if_neg (Nat.not_le_of_lt hd), if_pos ⟨hfar, hd, hwaits⟩, hB]
      rfl
    · rw [if_neg fun h => hd h.1, if_pos (Nat.le_of_not_lt hd), if_neg fun h => hd h.2.1, hB]
      rfl
  · rw [hb, hov, if_neg fun h : _ ∧ _ ∧ _ => ho (hiff.mpr ⟨h.1, h.2.2⟩)]
    by_cases hd : delay < w.wheel.slots
    · rw [if_pos ⟨hd, trivial⟩, if_neg (Nat.not_le_of_lt hd), hB]
      rfl
    · rw [if_neg fun h => hd h.1, if_pos (Nat.le_of_not_lt hd), hB]
      rfl

/-! ## The calls of two timers -/

/-- The callbacks of `A` and `B` that have run so far did so in this order, unless one of the two
was cancelled when its turn came. -/
def InOrder (w : World κ) (A B : Timer κ) : Prop :=
  (∀ x ∈ w.turns, x.timer.id ∈ [A.id, B.id] → x.cancelled = false) →
    (w.calls.map (·.timer.id)).filter (· ∈ [A.id, B.id]) <+: [A.id, B.id]

variable {B : Timer κ}

/-- Timers that are not cancelled run their callbacks in the order of their turns. -/
theorem Ok.ids_called (hw : w.Ok) (hcalls : w.calls = callsIn w.turns) (hA : A ∈ w.timers [])
    (hB : B ∈ w.timers []) (hD : B.deadline = A.deadline)
    (hflag : ∀ x ∈ w.turns, x.timer.id ∈ [A.id, B.id] → x.cancelled = false) :
    (w.calls.map (·.timer.id)).filter (· ∈ [A.id, B.id]) =
      ((w.turns.map (·.timer)).filter (among [A.id, B.id] A.deadline)).map (·.id) := by
  rw [hcalls, callsIn, List.map_map, List.filter_map, List.filter_filter, List.filter_map,
    List.map_map]
  refine congrArg (List.map _) (List.filter_congr fun x hx => ?_)
  have hmem : x.timer ∈ w.timers [] := mem_timers_iff.mpr (Or.inr ⟨x, hx, rfl⟩)
  by_cases hid : x.timer.id ∈ [A.id, B.id]
  · have hdeadline : x.timer.deadline = A.deadline := by
      rcases List.mem_pair.mp hid with h | h
      · rw [hw.eq_of_id hmem hA h]
      · rw [hw.eq_of_id hmem hB h, hD]
    simp [among, List.mem_pair.mp hid, hdeadline, hflag x hx hid]
  · have hids := mt List.mem_pair.mpr hid
    simp [among, hids]

/-- The turns that were taken are at the front of the queue. -/
theorem turns_prefix_queue (w : World κ) (D : ℕ) (p : Timer κ → Bool) :
    (w.turns.map (·.timer)).filter p <+: w.queue [] D p := by
  unfold queue
  rw [List.filter_append]
  exact List.prefix_append _ _

/-! ## A run in which nobody cancels a timer -/

/-- `id` is not cancelled, and was not when its turn came. -/
def Unset (w : World κ) (id : ℕ) : Prop :=
  w.cancelled id = false ∧ ∀ x ∈ w.turns, x.timer.id = id → x.cancelled = false

def idle (_ : κ) (_ : World κ) : List (Act κ) := []

theorem Unset.turn {id : ℕ} (h : w.Unset id) (fired : ℕ) (t : Timer κ) :
    (World.turn idle (fired, w) t).2.Unset id := by
  obtain ⟨hturns, -⟩ := turn_log idle fired w t
  have hcancelled : (World.turn idle (fired, w) t).2.cancelled = w.cancelled := by
    rw [turn_eq]
    unfold called
    split <;> rfl
  refine ⟨?_, ?_⟩
  · rw [hcancelled]
    exact h.1
  · intro x hx hid
    rw [hturns, List.mem_append] at hx
    rcases hx with hx | hx
    · exact h.2 x hx hid
    · obtain rfl := List.mem_singleton.mp hx
      have ht : t.id = id := hid
      show w.cancelled t.id = false
      rw [ht]
      exact h.1

theorem Unset.round {id : ℕ} (h : w.Unset id) : (World.round idle w).2.Unset id :=
  List.foldlRecOn (motive := fun v : ℕ × World κ => v.2.Unset id) _ (World.turn idle) h
    fun v hv t _ => hv.turn v.1 t

theorem Unset.advance {id : ℕ} (h : w.Unset id) (target : ℤ) :
    (World.advance idle w target).2.Unset id :=
  advanceLoop_induct (P := fun v => v.Unset id) (fun _ hv => hv.round) target _ 0 h

/-! ## The order of two timers -/

theorem queue_scheduled_run (hw : w.Ok) (hA : A ∈ w.wheel.held) (delay : ℕ) (callback : κ)
    (hD : A.deadline = w.wheel.now + delay) (env : κ → World κ → List (Act κ)) (ops : List (Op κ)) :
    (run env (w.register delay callback) ops).queue [] A.deadline
        (among [A.id, w.created] A.deadline) =
      if w.wheel.slots ≤ A.delay ∧ delay < w.wheel.slots ∧
          revolution w.wheel.slots w.wheel.now < revolution w.wheel.slots A.deadline then
        [w.nextTimer delay callback, A]
      else [A, w.nextTimer delay callback] := by
  have hlt := hw.id_lt (mem_timers_iff.mpr (Or.inl hA))
  have hsel : (w.register delay callback).Selects A.deadline
      (among [A.id, w.created] A.deadline) := by
    constructor
    · intro t ht
      exact (of_decide_eq_true ht).2
    · intro t ht
      have hcreated : (w.register delay callback).created = w.created + 1 := rfl
      rcases List.mem_pair.mp (of_decide_eq_true ht).1 with hid | hid
      · omega
      · omega
  obtain ⟨hqueue, -⟩ := queue_run (hw.register delay callback).1 hsel env ops
  exact hqueue.trans (queue_scheduled hw hA delay callback hD)

theorem Ok.mem_timers_run (hw : w.Ok) (hA : A ∈ w.timers []) (delay : ℕ) (callback : κ)
    (env : κ → World κ → List (Act κ)) (ops : List (Op κ)) :
    A ∈ (World.run env (w.register delay callback) ops).timers [] := by
  obtain ⟨hok, hev⟩ := hw.register delay callback
  obtain ⟨-, new, hev'⟩ := hok.run env ops
  exact (hev.trans hev').grows.mem hA

/-- **The timer that is scheduled later does not pass.** -/
theorem inOrder_run (hw : w.Ok) (hcalls : w.calls = callsIn w.turns) (hA : A ∈ w.wheel.held)
    (delay : ℕ) (callback : κ) (hD : A.deadline = w.wheel.now + delay)
    (hgood : ¬ (w.wheel.slots ≤ A.delay ∧ delay < w.wheel.slots ∧
      revolution w.wheel.slots w.wheel.now < revolution w.wheel.slots A.deadline))
    (env : κ → World κ → List (Act κ)) (ops : List (Op κ)) :
    (run env (w.register delay callback) ops).InOrder A (w.nextTimer delay callback) := by
  intro hflag
  obtain ⟨hok, hcalls', -, hB⟩ := hw.scheduled hcalls env delay callback ops
  have hA' := hw.mem_timers_run (mem_timers_iff.mpr (Or.inl hA)) delay callback env ops
  have hqueue := queue_scheduled_run hw hA delay callback hD env ops
  rw [if_neg hgood] at hqueue
  have hprefix := turns_prefix_queue (run env (w.register delay callback) ops) A.deadline
    (among [A.id, w.created] A.deadline)
  rw [hqueue] at hprefix
  rw [hok.ids_called hcalls' hA' hB hD.symm hflag]
  exact hprefix.map (·.id)

/-- Takes back what cancellations of `A` and `B` there may be, and advances to the deadline of
`A`. -/
def toDeadline (A B : Timer κ) : List (Op κ) :=
  [.setCancelled A.id false, .setCancelled B.id false, .advance (A.deadline : ℕ)]

theorem unset_toDeadline (hw : w.Ok) (hA : A ∈ w.wheel.held) (delay : ℕ) (callback : κ) :
    ∀ x ∈ (run idle (w.register delay callback)
        (toDeadline A (w.nextTimer delay callback))).turns,
      x.timer.id ∈ [A.id, w.created] → x.cancelled = false := by
  have hmem := mem_timers_iff.mpr (Or.inl hA)
  have hne : A.id ≠ w.created := Nat.ne_of_lt (hw.id_lt hmem)
  set v := ((w.register delay callback).setCancelled A.id false).setCancelled w.created false with hv
  have hunsetA : v.Unset A.id := by
    refine ⟨by simp [hv, setCancelled, hne], fun x hx hid => ?_⟩
    exact absurd hid (hw.not_turn_of_lt_fires hmem (hw.now_lt_fires hA) x hx)
  have hunsetB : v.Unset w.created := by
    refine ⟨by simp [hv, setCancelled], fun x hx hid => ?_⟩
    have hx' : x.timer ∈ w.timers [] := mem_timers_iff.mpr (Or.inr ⟨x, hx, rfl⟩)
    exact absurd hid (Nat.ne_of_lt (hw.id_lt hx'))
  intro x hx hid
  rcases List.mem_pair.mp hid with hid | hid
  · exact (hunsetA.advance (A.deadline : ℕ)).2 x hx hid
  · exact (hunsetB.advance (A.deadline : ℕ)).2 x hx hid

/-- A timer with a positive delay of less than one revolution has had its turn then. -/
theorem turn_toDeadline (hw : w.Ok) (hcalls : w.calls = callsIn w.turns) {delay : ℕ} (callback : κ)
    (hpos : 0 < delay) (hnear : delay < w.wheel.slots) (hD : A.deadline = w.wheel.now + delay) :
    ∃ x ∈ (run idle (w.register delay callback)
        (toDeadline A (w.nextTimer delay callback))).turns, x.timer = w.nextTimer delay callback := by
  set B := w.nextTimer delay callback with hBdef
  obtain ⟨hok, -, hslots, hB⟩ := hw.scheduled hcalls idle delay callback (toDeadline A B)
  have hnow : (run idle (w.register delay callback) (toDeadline A B)).wheel.now = A.deadline := by
    have hclock := now_run (hw.register delay callback).1 idle (toDeadline A B)
    rw [now_register] at hclock
    refine hclock.trans ?_
    show max w.wheel.now ((A.deadline : ℕ) : ℤ).toNat = A.deadline
    omega
  have hfires : B.fires w.wheel.slots = A.deadline := by
    refine (Timer.fires_of_not_late ?_).trans hD.symm
    rintro (hzero | ⟨hfar, -⟩)
    · exact absurd hzero (Nat.ne_of_gt hpos)
    · exact absurd hfar (Nat.not_le_of_lt hnear)
  rw [← hslots] at hfires
  obtain ⟨x, hx, hxB, -⟩ := hok.turn_of_fires_le hB (Nat.le_of_eq (hfires.trans hnow.symm))
  exact ⟨x, hx, hxB⟩

/-- **The timer that is scheduled later passes** the one that is in the overflow list. -/
theorem not_inOrder_run (hw : w.Ok) (hcalls : w.calls = callsIn w.turns) (hA : A ∈ w.wheel.held)
    (delay : ℕ) (callback : κ) (hpos : 0 < delay) (hD : A.deadline = w.wheel.now + delay)
    (hbad : w.wheel.slots ≤ A.delay ∧ delay < w.wheel.slots ∧
      revolution w.wheel.slots w.wheel.now < revolution w.wheel.slots A.deadline) :
    ¬ (run idle (w.register delay callback) (toDeadline A (w.nextTimer delay callback))).InOrder A
      (w.nextTimer delay callback) := by
  obtain ⟨x, hx, hxB⟩ := turn_toDeadline hw hcalls callback hpos hbad.2.1 hD
  have hflag := unset_toDeadline hw hA delay callback
  set B := w.nextTimer delay callback with hBdef
  have hmem := mem_timers_iff.mpr (Or.inl hA)
  have hlt : A.id < B.id := hw.id_lt hmem
  obtain ⟨hok, hcalls', -, hB⟩ := hw.scheduled hcalls idle delay callback (toDeadline A B)
  have hA' := hw.mem_timers_run hmem delay callback idle (toDeadline A B)
  have hqueue := queue_scheduled_run hw hA delay callback hD idle (toDeadline A B)
  rw [if_pos hbad] at hqueue
  set w' := run idle (w.register delay callback) (toDeadline A B)
  have hturn : B ∈ (w'.turns.map (·.timer)).filter (among [A.id, B.id] A.deadline) := by
    refine List.mem_filter.mpr ⟨List.mem_map.mpr ⟨x, hx, hxB⟩, ?_⟩
    simp [among, hBdef, nextTimer, hD]
  have hprefix : (w'.turns.map (·.timer)).filter (among [A.id, B.id] A.deadline) <+: [B, A] :=
    hqueue ▸ turns_prefix_queue w' A.deadline (among [A.id, w.created] A.deadline)
  intro horder
  have hids := horder hflag
  rw [hok.ids_called hcalls' hA' hB hD.symm hflag] at hids
  rcases List.prefix_cons_iff.mp hprefix with hnil | ⟨rest, hcons, -⟩
  · exact absurd hturn (hnil ▸ List.not_mem_nil)
  · rw [hcons, List.map_cons] at hids
    exact absurd (List.cons_prefix_cons.mp hids).1 (Nat.ne_of_gt hlt)

/-- A timer stays on the wheel until its deadline. -/
theorem Ok.held_of_lt_deadline (hw : w.Ok) (hA : A ∈ w.timers []) (hlt : w.wheel.now < A.deadline) :
    A ∈ w.wheel.held := by
  rcases mem_timers_iff.mp hA with hheld | ⟨x, hx, rfl⟩
  · exact hheld
  · obtain ⟨hfires, hnow, -⟩ := hw.turns x hx
    have := x.timer.le_fires w.wheel.slots
    omega

/-- In any run, a first timer `A` that is still on the wheel when the second one is scheduled. -/
theorem held_at_second (slotsPerWheel levels : ℕ) (h : 0 < slotsPerWheel)
    (env : κ → World κ → List (Act κ)) (ops ops' : List (Op κ)) {delayA delayB : ℕ} (callbackA : κ)
    (hB : 0 < delayB) (hD : clock 0 ops + delayA = clock 0 (ops ++ ops') + delayB) :
    ∃ A w, (run env (new slotsPerWheel levels) ops).schedule delayA callbackA = .ok (A, w) ∧
      A.delay = delayA ∧ A.deadline = clock 0 ops + delayA ∧
      (run env w ops').Ok ∧ (run env w ops').calls = callsIn (run env w ops').turns ∧
      (run env w ops').wheel.slots = slotsPerWheel * max levels 1 ∧
      (run env w ops').wheel.now = clock 0 (ops ++ ops') ∧ A ∈ (run env w ops').wheel.held := by
  obtain ⟨hok, hcalls, hslots⟩ := ok_run slotsPerWheel levels h env ops
  have hnow := now_run (ok_new slotsPerWheel levels h) env ops
  set w₁ := run env (new slotsPerWheel levels) ops
  obtain ⟨hok', hcalls', hslots', hA⟩ := hok.scheduled hcalls env delayA callbackA ops'
  have hnow' := now_run (hok.register delayA callbackA).1 env ops'
  rw [now_register, hnow] at hnow'
  have hclock : clock 0 (ops ++ ops') = clock (clock 0 ops) ops' := List.foldl_append
  have hdeadline : (w₁.nextTimer delayA callbackA).deadline = clock 0 ops + delayA :=
    congrArg (· + delayA) hnow
  refine ⟨w₁.nextTimer delayA callbackA, w₁.register delayA callbackA,
    schedule_ok_iff.mpr ⟨rfl, rfl⟩, rfl, hdeadline, hok', hcalls', hslots'.trans hslots,
    hnow'.trans hclock.symm, hok'.held_of_lt_deadline hA ?_⟩
  rw [hdeadline, hnow', hD, hclock]
  exact Nat.lt_add_of_pos_right hB

/-- **Timers with one deadline fire in the order they were scheduled exactly when** it does not
happen that the later one is put into its bucket while the earlier one is still in the overflow
list: the earlier one was far out, the later one is not, and a revolution is completed in a tick
after the second call of `schedule`, up to the deadline. -/
theorem fires_in_order_iff (slotsPerWheel levels : ℕ) (h : 0 < slotsPerWheel)
    (ops ops' : List (Op κ)) (delayA delayB : ℕ) (callbackA callbackB : κ) (hB : 0 < delayB)
    (hD : clock 0 ops + delayA = clock 0 (ops ++ ops') + delayB) :
    (∀ env w A v B,
      (run env (new slotsPerWheel levels) ops).schedule delayA callbackA = .ok (A, w) →
      (run env w ops').schedule delayB callbackB = .ok (B, v) →
      ∀ more, (run env v more).InOrder A B) ↔
    ¬ (slotsPerWheel * max levels 1 ≤ delayA ∧ delayB < slotsPerWheel * max levels 1 ∧
      revolution (slotsPerWheel * max levels 1) (clock 0 (ops ++ ops')) <
        revolution (slotsPerWheel * max levels 1) (clock 0 ops + delayA)) := by
  constructor
  · intro hall hbad
    obtain ⟨A, w, hs, hdelay, hdeadline, hok, hcalls, hslots, hnow, hA⟩ :=
      held_at_second slotsPerWheel levels h idle ops ops' callbackA hB hD
    have hwrong := not_inOrder_run hok hcalls hA delayB callbackB hB
      (by rw [hdeadline, hnow, hD]) (by rw [hdelay, hdeadline, hslots, hnow]; exact hbad)
    exact hwrong (hall idle w A _ _ hs (schedule_ok_iff.mpr ⟨rfl, rfl⟩) _)
  · intro hgood env w A v B hsA hsB more
    obtain ⟨A', w', hs, hdelay, hdeadline, hok, hcalls, hslots, hnow, hA⟩ :=
      held_at_second slotsPerWheel levels h env ops ops' callbackA hB hD
    obtain ⟨rfl, rfl⟩ : A' = A ∧ w' = w := Prod.mk.inj (Except.ok.inj (hs.symm.trans hsA))
    obtain ⟨rfl, rfl⟩ := schedule_ok_iff.mp hsB
    exact inOrder_run hok hcalls hA delayB callbackB (by rw [hdeadline, hnow, hD])
      (by rw [hdelay, hdeadline, hslots, hnow]; exact hgood) env more

/-- On a wheel of 4 slots, two timers with deadline 6 that both wait in the overflow list fire in
order. -/
theorem fires_in_order_iff_far :
    ∃ w A v B, (new 4 1 : World Unit).schedule (6 : ℕ) () = .ok (A, w) ∧
      (run idle w [.advance 1]).schedule (5 : ℕ) () = .ok (B, v) ∧
      ∀ more, (run idle v more).InOrder A B := by
  refine ⟨_, _, _, _, schedule_ok_iff.mpr ⟨rfl, rfl⟩, schedule_ok_iff.mpr ⟨rfl, rfl⟩, ?_⟩
  exact (fires_in_order_iff 4 1 (by decide) [] [.advance 1] 6 5 () () (by decide) (by decide)).mpr
    (by decide) idle _ _ _ _ (schedule_ok_iff.mpr ⟨rfl, rfl⟩) (schedule_ok_iff.mpr ⟨rfl, rfl⟩)

/-- A timer with deadline 8 that is scheduled at 5 fires before the one that was scheduled at 0: it
goes into bucket 0 while the other one is in the overflow list until the tick 7. -/
theorem eight_is_overtaken :
    ¬ ∀ w A v B, (new 4 1 : World Unit).schedule 8 () = .ok (A, w) →
      (run idle w [.advance 5]).schedule 3 () = .ok (B, v) →
      ∀ more, (run idle v more).InOrder A B := by
  intro hall
  have horder := hall _ _ _ _ rfl rfl [.advance 8] (by decide)
  exact absurd horder (by decide)

end World

end DurableExecution
