import Mathlib.Tactic.Set
import DurableExecution.Wheel.Agenda
import DurableExecution.Wheel.Proofs.RepresentationProofs

/-!
# Proofs: the wheel follows the agenda

In every run, with any callbacks, the wheel gives the answers of the agenda, and all that is visible
of the two is the same. The entries of the agenda that fire in one tick are the timers of one bucket
and behind them timers of the overflow list: a near timer is put between the two, a far one behind
both, and re-homing moves the line between them only.
-/

namespace DurableExecution

variable {κ : Type}

open World

namespace Agenda

variable {a : Agenda κ} {w : World κ} {t u : Timer κ} {pending : List (Timer κ)} {n : ℕ}

/-! ## Ranks -/

/-- Far timers that fire in the same tick have the same deadline. -/
theorem deadline_eq_of_fires {slots : ℕ} (hpos : 0 < slots) (ht : slots ≤ t.delay)
    (hu : slots ≤ u.delay) (h : t.fires slots = u.fires slots) : t.deadline = u.deadline := by
  have hlate : ∀ v : Timer κ, slots ≤ v.delay → (v.Late slots ↔ (v.deadline + 1) % slots = 0) := by
    intro v hv
    unfold Timer.Late
    omega
  have hmod : ∀ v : Timer κ, v.deadline + slots + 1 = v.deadline + 1 + slots := fun v => by omega
  unfold Timer.fires at h
  simp only [hlate t ht, hlate u hu] at h
  split at h <;> split at h
  · omega
  · next h₁ h₂ =>
    rw [← h, hmod, Nat.add_mod_right] at h₂
    exact absurd h₁ h₂
  · next h₁ h₂ =>
    rw [h, hmod, Nat.add_mod_right] at h₁
    exact absurd h₂ h₁
  · exact h

/-- The bucket of a timer in the overflow list is filled up later. -/
theorem lt_farRank {slots ticks : ℕ} (hpos : 0 < slots)
    (ht : t.InOverflow slots (revolution slots ticks)) : 2 * ticks < farRank slots t := by
  have hwaits : revolution slots ticks < revolution slots t.deadline := ht.waits
  unfold revolution at hwaits
  rw [Nat.div_lt_iff_lt_mul hpos] at hwaits
  unfold farRank revolution
  omega

/-- At the end of a revolution, the timers that come into range have had their bucket filled up. -/
theorem farRank_le {slots ticks : ℕ} (hpos : 0 < slots) (hlast : (ticks + 1) % slots = slots - 1)
    (hrange : t.deadline < ticks + 1 + slots) : farRank slots t ≤ 2 * (ticks + 1) := by
  have hzero := (mod_eq_last_iff hpos).mp hlast
  obtain ⟨q, hq⟩ := Nat.dvd_of_mod_eq_zero hzero
  have hrev : revolution slots t.deadline < q + 1 := by
    unfold revolution
    rw [Nat.div_lt_iff_lt_mul hpos, Nat.add_mul, Nat.mul_comm q, ← hq]
    omega
  have hmul : revolution slots t.deadline * slots ≤ q * slots :=
    Nat.mul_le_mul_right slots (Nat.lt_succ_iff.mp hrev)
  rw [Nat.mul_comm q, ← hq] at hmul
  unfold farRank
  omega

/-! ## The wheel and the agenda -/

/-- The timer fires in the tick `n`. -/
def firing (slots n : ℕ) (t : Timer κ) : Bool := t.fires slots = n

/-- The entries that fire in the tick `n`: those of one bucket, and behind them those of the overflow
list. -/
structure Split (w : World κ) (a : Agenda κ) (n : ℕ) (near far : List (Entry κ)) : Prop where
  queue : a.queue.filter (fun e => firing w.wheel.slots n e.timer) = near ++ far
  bucket : near.map (·.timer) =
    (w.wheel.bucket (n % w.wheel.slots)).filter (firing w.wheel.slots n)
  overflow : far.map (·.timer) = w.wheel.overflow.filter (firing w.wheel.slots n)
  near_rank : ∀ e ∈ near, e.rank ≤ 2 * a.ticks
  far_rank : ∀ e ∈ far, e.rank = farRank w.wheel.slots e.timer

/-- The agenda has planned what the wheel holds. -/
structure Plans (a : Agenda κ) (w : World κ) : Prop where
  visible : a.toVisible = w.visible
  span : a.span = w.wheel.slots
  sorted : StableQueue.Sorted (Entry.key w.wheel.slots) a.queue
  after : ∀ e ∈ a.queue, w.wheel.now < e.timer.fires w.wheel.slots
  split : ∀ n, ∃ near far, Split w a n near far

theorem Plans.now (h : Plans a w) : a.now = w.wheel.now := congrArg Visible.now h.visible

theorem Plans.size (h : Plans a w) : a.size = w.wheel.size := congrArg Visible.size h.visible

theorem Plans.cancelled (h : Plans a w) : a.cancelled = w.cancelled :=
  congrArg Visible.cancelled h.visible

theorem Plans.created (h : Plans a w) : a.created = w.created :=
  congrArg Visible.created h.visible

theorem Plans.turns (h : Plans a w) : a.turns = w.turns := congrArg Visible.turns h.visible

theorem Plans.calls (h : Plans a w) : a.calls = w.calls := congrArg Visible.calls h.visible

theorem Plans.nextTimer (h : Plans a w) (delay : ℕ) (callback : κ) :
    a.nextTimer delay callback = w.nextTimer delay callback := by
  unfold Agenda.nextTimer World.nextTimer
  rw [h.now, h.created]

/-! ## Scheduling -/

/-- A timer that is just scheduled fires later. -/
theorem now_lt_fires_nextTimer (hw : w.Inv pending (revolution w.wheel.slots a.ticks)) (delay : ℕ)
    (callback : κ) : w.wheel.now < (w.nextTimer delay callback).fires w.wheel.slots := by
  rcases Nat.lt_or_ge delay w.wheel.slots with hnear | hfar
  · have hin : (w.nextTimer delay callback).InBucket w.wheel.slots w.wheel.now 0
        ((w.wheel.now + delay) % w.wheel.slots) := inBucket_nextTimer w callback hnear
    exact hin.after
  · have hle := (w.nextTimer delay callback).le_fires w.wheel.slots
    have hdeadline : (w.nextTimer delay callback).deadline = w.wheel.now + delay := rfl
    have hpos := hw.pos
    omega

/-- In which bucket the new timer is, among the timers that fire in the tick `n`. -/
theorem bucket_register_firing (hpos : 0 < w.wheel.slots) (delay : ℕ) (callback : κ) (n : ℕ) :
    ((w.register delay callback).wheel.bucket (n % w.wheel.slots)).filter (firing w.wheel.slots n) =
      (w.wheel.bucket (n % w.wheel.slots)).filter (firing w.wheel.slots n) ++
        if delay < w.wheel.slots ∧ firing w.wheel.slots n (w.nextTimer delay callback) then
          [w.nextTimer delay callback] else [] := by
  have hmod := (w.nextTimer delay callback).fires_mod w.wheel.slots
  have hdeadline : (w.nextTimer delay callback).deadline = w.wheel.now + delay := rfl
  rw [hdeadline] at hmod
  rw [bucket_register hpos, List.filter_append]
  congr 1
  by_cases hfire : firing w.wheel.slots n (w.nextTimer delay callback) = true
  · have heq : (w.nextTimer delay callback).fires w.wheel.slots = n := by simpa [firing] using hfire
    rw [heq] at hmod
    by_cases hnear : delay < w.wheel.slots <;> simp [hnear, hfire, hmod]
  · split <;> simp [hfire]

theorem overflow_register_firing (w : World κ) (delay : ℕ) (callback : κ) (n : ℕ) :
    (w.register delay callback).wheel.overflow.filter (firing w.wheel.slots n) =
      w.wheel.overflow.filter (firing w.wheel.slots n) ++
        if w.wheel.slots ≤ delay ∧ firing w.wheel.slots n (w.nextTimer delay callback) then
          [w.nextTimer delay callback] else [] := by
  rw [overflow_register, List.filter_append]
  congr 1
  by_cases hfar : w.wheel.slots ≤ delay
  · by_cases hfire : firing w.wheel.slots n (w.nextTimer delay callback) = true <;> simp [hfar, hfire]
  · simp [hfar]

/-- The entry of the new timer. -/
def newEntry (a : Agenda κ) (w : World κ) (delay : ℕ) (callback : κ) : Entry κ :=
  ⟨w.nextTimer delay callback, if delay < w.wheel.slots then 2 * a.ticks
    else farRank w.wheel.slots (w.nextTimer delay callback)⟩

theorem Plans.queue_register (h : Plans a w) (delay : ℕ) (callback : κ) :
    (a.register delay callback).queue =
      StableQueue.insert (Entry.key w.wheel.slots) a.queue (newEntry a w delay callback) := by
  have hqueue : (a.register delay callback).queue = StableQueue.insert (Entry.key a.span) a.queue
      ⟨a.nextTimer delay callback, a.rankOf (a.nextTimer delay callback)⟩ := rfl
  rw [hqueue, h.nextTimer, h.span]
  unfold rankOf newEntry
  rw [h.span]
  rfl

theorem key_of_firing {slots : ℕ} {e : Entry κ} (he : firing slots n e.timer = true) :
    e.key slots = toLex (n, e.rank) := by
  have heq : e.timer.fires slots = n := by simpa [firing] using he
  rw [Entry.key, heq]

theorem Split.firing {near far : List (Entry κ)} (hs : Split w a n near far) {e : Entry κ}
    (he : e ∈ near ++ far) : Agenda.firing w.wheel.slots n e.timer = true := by
  rw [← hs.queue] at he
  exact (List.mem_filter.mp he).2

/-- A timer of the overflow list has its entry among the far ones. -/
theorem Split.mem_overflow {near far : List (Entry κ)} (hs : Split w a n near far) {e : Entry κ}
    (he : e ∈ far) : e.timer ∈ w.wheel.overflow := by
  have hmem : e.timer ∈ far.map (·.timer) := List.mem_map_of_mem he
  rw [hs.overflow] at hmem
  exact (List.mem_filter.mp hmem).1

/-- A near timer goes behind the timers of its bucket, and before those of the overflow list. -/
theorem insert_near (hw : w.Inv pending (revolution w.wheel.slots a.ticks))
    {near far : List (Entry κ)} (hs : Split w a n near far) {delay : ℕ} {callback : κ}
    (hnear : delay < w.wheel.slots)
    (hfire : firing w.wheel.slots n (w.nextTimer delay callback) = true) :
    StableQueue.insert (Entry.key w.wheel.slots) (near ++ far) (newEntry a w delay callback) =
      near ++ newEntry a w delay callback :: far := by
  have hkey := key_of_firing (e := newEntry a w delay callback) hfire
  have hrank : (newEntry a w delay callback).rank = 2 * a.ticks := if_pos hnear
  rw [hrank] at hkey
  apply StableQueue.insert_between
  · intro e he
    rw [hkey, key_of_firing (hs.firing (List.mem_append_left far he)), Prod.Lex.toLex_le_toLex]
    exact Or.inr ⟨rfl, hs.near_rank e he⟩
  · intro e he
    have hlt := lt_farRank hw.pos (hw.overflow _ (hs.mem_overflow he))
    rw [← hs.far_rank e he] at hlt
    rw [hkey, key_of_firing (hs.firing (List.mem_append_right near he)), Prod.Lex.toLex_lt_toLex]
    exact Or.inr ⟨rfl, hlt⟩

/-- A far timer goes behind all of them. -/
theorem insert_far (hw : w.Inv pending (revolution w.wheel.slots a.ticks))
    {near far : List (Entry κ)} (hs : Split w a n near far) {delay : ℕ} {callback : κ}
    (hfar : w.wheel.slots ≤ delay)
    (hfire : firing w.wheel.slots n (w.nextTimer delay callback) = true) :
    StableQueue.insert (Entry.key w.wheel.slots) (near ++ far) (newEntry a w delay callback) =
      near ++ (far ++ [newEntry a w delay callback]) := by
  have hkey := key_of_firing (e := newEntry a w delay callback) hfire
  have hrank : (newEntry a w delay callback).rank =
      farRank w.wheel.slots (w.nextTimer delay callback) := if_neg (Nat.not_lt.mpr hfar)
  have hwaits := inOverflow_nextTimer hw callback hfar
  rw [hrank] at hkey
  suffices hle : ∀ e ∈ near ++ far,
      Entry.key w.wheel.slots e ≤ Entry.key w.wheel.slots (newEntry a w delay callback) by
    have hall := StableQueue.insert_between hle fun e he => absurd he List.not_mem_nil
    rw [List.append_nil, List.append_assoc] at hall
    exact hall
  · intro e he
    rw [hkey, key_of_firing (hs.firing he), Prod.Lex.toLex_le_toLex]
    refine Or.inr ⟨rfl, ?_⟩
    rcases List.mem_append.mp he with hn | hf
    · have hle := hs.near_rank e hn
      have hlt := lt_farRank hw.pos hwaits
      show e.rank ≤ _
      omega
    · -- it has the deadline of the new timer, so its bucket is filled up in the same tick
      have hfires : e.timer.fires w.wheel.slots =
          (w.nextTimer delay callback).fires w.wheel.slots := by
        have h₁ := hs.firing he
        simp only [Agenda.firing, decide_eq_true_eq] at h₁ hfire
        rw [h₁, hfire]
      have hdeadline := deadline_eq_of_fires hw.pos (hw.overflow _ (hs.mem_overflow hf)).far
        hwaits.far hfires
      show e.rank ≤ _
      rw [hs.far_rank e hf, farRank, farRank, hdeadline]

/-- The place of the new timer among those that fire in the same tick. -/
theorem Split.register (hw : w.Inv pending (revolution w.wheel.slots a.ticks)) (h : Plans a w)
    {near far : List (Entry κ)} (hs : Split w a n near far) (delay : ℕ) (callback : κ) :
    ∃ near' far', Split (w.register delay callback) (a.register delay callback) n near' far' := by
  have hqueue : (a.register delay callback).queue.filter
      (fun e => Agenda.firing w.wheel.slots n e.timer) =
        if Agenda.firing w.wheel.slots n (w.nextTimer delay callback) = true then
          StableQueue.insert (Entry.key w.wheel.slots) (near ++ far) (newEntry a w delay callback)
        else near ++ far := by
    rw [h.queue_register, StableQueue.filter_insert h.sorted, hs.queue]
    rfl
  have hbucket := bucket_register_firing hw.pos delay callback n
  have hoverflow := overflow_register_firing w delay callback n
  by_cases hfire : Agenda.firing w.wheel.slots n (w.nextTimer delay callback) = true
  · rw [if_pos hfire] at hqueue
    rcases Nat.lt_or_ge delay w.wheel.slots with hnear | hfar
    · have hfar : ¬ w.wheel.slots ≤ delay := by omega
      rw [insert_near hw hs hnear hfire] at hqueue
      rw [if_pos ⟨hnear, hfire⟩] at hbucket
      rw [if_neg (fun hc => hfar hc.1), List.append_nil] at hoverflow
      refine ⟨near ++ [newEntry a w delay callback], far, ?_, ?_, ?_, ?_, ?_⟩
      · rw [slots_register, hqueue, List.append_assoc, List.singleton_append]
      · rw [slots_register, hbucket, List.map_append, hs.bucket]
        rfl
      · rw [slots_register, hoverflow, hs.overflow]
      · intro e he
        rcases List.mem_append.mp he with he | he
        · exact hs.near_rank e he
        · obtain rfl := List.mem_singleton.mp he
          exact Nat.le_of_eq (if_pos hnear)
      · rw [slots_register]
        exact hs.far_rank
    · have hnear : ¬ delay < w.wheel.slots := by omega
      rw [insert_far hw hs hfar hfire] at hqueue
      rw [if_neg (fun hc => hnear hc.1), List.append_nil] at hbucket
      rw [if_pos ⟨hfar, hfire⟩] at hoverflow
      refine ⟨near, far ++ [newEntry a w delay callback], ?_, ?_, ?_, hs.near_rank, ?_⟩
      · rw [slots_register, hqueue]
      · rw [slots_register, hbucket, hs.bucket]
      · rw [slots_register, hoverflow, List.map_append, hs.overflow]
        rfl
      · intro e he
        rw [slots_register]
        rcases List.mem_append.mp he with he | he
        · exact hs.far_rank e he
        · obtain rfl := List.mem_singleton.mp he
          exact if_neg hnear
  · rw [if_neg hfire] at hqueue
    rw [if_neg (fun hc => hfire hc.2), List.append_nil] at hbucket hoverflow
    refine ⟨near, far, ?_, ?_, ?_, hs.near_rank, ?_⟩
    · rw [slots_register, hqueue]
    · rw [slots_register, hbucket, hs.bucket]
    · rw [slots_register, hoverflow, hs.overflow]
    · rw [slots_register]
      exact hs.far_rank

theorem Plans.register (hw : w.Inv pending (revolution w.wheel.slots a.ticks)) (h : Plans a w)
    (delay : ℕ) (callback : κ) : Plans (a.register delay callback) (w.register delay callback) := by
  have hnext := h.nextTimer delay callback
  refine ⟨?_, ?_, ?_, ?_, ?_⟩
  · have hsize : (w.register delay callback).wheel.size = w.wheel.size + 1 := by
      simp [World.register]
    have hid : (w.nextTimer delay callback).id = w.created := rfl
    unfold World.visible
    rw [now_register, hsize, ← h.now, ← h.size]
    simp only [Agenda.register, World.register, hnext, hid, h.cancelled, h.created, h.turns, h.calls]
  · rw [slots_register]
    exact h.span
  · rw [slots_register, h.queue_register]
    exact StableQueue.sorted_insert h.sorted _
  · intro e he
    rw [h.queue_register, StableQueue.mem_insert] at he
    rw [slots_register, now_register]
    rcases he with rfl | he
    · exact now_lt_fires_nextTimer hw delay callback
    · exact h.after e he
  · intro n
    obtain ⟨near, far, hs⟩ := h.split n
    exact hs.register hw h delay callback

/-! ## Turns -/

/-- The wheel and the agenda are in step while the timers of `pending` wait for their turns. -/
structure InStep (w : World κ) (pending : List (Timer κ)) (a : Agenda κ) : Prop where
  inv : w.Inv pending (revolution w.wheel.slots a.ticks)
  plans : Plans a w

variable {cb : Callbacks κ}

theorem InStep.act (h : InStep w pending a) (x : Act κ) : InStep (w.act x) pending (a.act x) := by
  cases x with
  | schedule delay callback =>
    refine ⟨?_, h.plans.register h.inv delay callback⟩
    show (w.register delay callback).Inv pending
      (revolution (w.register delay callback).wheel.slots a.ticks)
    rw [slots_register]
    exact h.inv.register delay callback
  | setCancelled id cancelled =>
    obtain ⟨hvisible, hspan, hsorted, hafter, hsplit⟩ := h.plans
    refine ⟨h.inv.setCancelled id cancelled, ?_, hspan, hsorted, hafter, fun n => ?_⟩
    · have hflags := h.plans.cancelled
      have hothers := hvisible
      show { a.toVisible with cancelled := Function.update a.cancelled id cancelled } =
        { w.visible with cancelled := Function.update w.cancelled id cancelled }
      rw [hflags, hothers]
    · obtain ⟨near, far, hs⟩ := hsplit n
      exact ⟨near, far, hs.queue, hs.bucket, hs.overflow, hs.near_rank, hs.far_rank⟩

theorem ticks_act (a : Agenda κ) (x : Act κ) : (a.act x).ticks = a.ticks := by
  cases x <;> rfl

theorem ticks_acts (a : Agenda κ) (xs : List (Act κ)) : (xs.foldl Agenda.act a).ticks = a.ticks := by
  induction xs generalizing a with
  | nil => rfl
  | cons x xs ih => exact (ih (a.act x)).trans (ticks_act a x)

theorem InStep.acts (h : InStep w pending a) (xs : List (Act κ)) :
    InStep (xs.foldl World.act w) pending (xs.foldl Agenda.act a) := by
  induction xs generalizing w a with
  | nil => exact h
  | cons x xs ih => exact ih (h.act x)

/-- The agenda in which the callback of `t` is called. -/
def logged (a : Agenda κ) (t : Timer κ) : Agenda κ := { a with calls := a.calls ++ [⟨a.now, t⟩] }

/-- The agenda after the callback of `t` has had its chance. -/
def called (cb : Callbacks κ) (a : Agenda κ) (t : Timer κ) : Agenda κ :=
  if a.cancelled t.id then a else a.call cb t

/-- `t` is counted out. -/
def countOut (a : Agenda κ) (t : Timer κ) (cancelled : Bool) : Agenda κ :=
  { a with size := a.size - 1, turns := a.turns ++ [⟨a.now, t, cancelled, a.size - 1⟩] }

theorem turn_eq (cb : Callbacks κ) (fired : ℕ) (a : Agenda κ) (t : Timer κ) :
    Agenda.turn cb (fired, a) t =
      (fired + if a.cancelled t.id then 0 else 1, (called cb a t).countOut t (a.cancelled t.id)) := by
  cases h : a.cancelled t.id <;> simp [Agenda.turn, called, countOut, h]

theorem InStep.log (h : InStep w pending a) (t : Timer κ) :
    InStep (w.logged t) pending (a.logged t) := by
  obtain ⟨hvisible, hspan, hsorted, hafter, hsplit⟩ := h.plans
  obtain ⟨hpos, hedge, hbucket, hoverflow, hdue, hturns, hids, hsize⟩ := h.inv
  refine ⟨⟨hpos, hedge, hbucket, hoverflow, hdue, hturns, hids, hsize⟩, ?_, hspan, hsorted, hafter,
    fun n => ?_⟩
  · have hcalls : (a.logged t).toVisible =
        { a.toVisible with calls := a.toVisible.calls ++ [⟨a.toVisible.now, t⟩] } := rfl
    rw [hcalls, hvisible]
    rfl
  · obtain ⟨near, far, hs⟩ := hsplit n
    exact ⟨near, far, hs.queue, hs.bucket, hs.overflow, hs.near_rank, hs.far_rank⟩

theorem InStep.called (h : InStep w pending a) (cb : Callbacks κ) (t : Timer κ) :
    InStep (World.called (World.env cb) w t) pending (a.called cb t) := by
  unfold World.called Agenda.called
  rw [h.plans.cancelled]
  split
  · exact h
  · have hlog := h.log t
    have hacts := hlog.acts (cb t.callback (w.logged t).visible)
    have hcall : a.call cb t = (cb t.callback (a.logged t).toVisible).foldl Agenda.act (a.logged t) :=
      rfl
    rw [hcall, hlog.plans.visible]
    exact hacts

/-- The size and the turns are visible only. -/
theorem Plans.countOut (h : Plans a w) (t : Timer κ) (cancelled : Bool) :
    Plans (a.countOut t cancelled) { w with
      wheel := { w.wheel with size := w.wheel.size - 1 }
      turns := w.turns ++ [⟨w.wheel.now, t, cancelled, w.wheel.size - 1⟩] } := by
  obtain ⟨hvisible, hspan, hsorted, hafter, hsplit⟩ := h
  refine ⟨?_, hspan, hsorted, hafter, fun n => ?_⟩
  · have hout : (a.countOut t cancelled).toVisible =
        { a.toVisible with
          size := a.toVisible.size - 1
          turns := a.toVisible.turns ++ [⟨a.toVisible.now, t, cancelled, a.toVisible.size - 1⟩] } :=
      rfl
    rw [hout, hvisible]
    rfl
  · obtain ⟨near, far, hs⟩ := hsplit n
    exact ⟨near, far, hs.queue, hs.bucket, hs.overflow, hs.near_rank, hs.far_rank⟩

theorem ticks_called (cb : Callbacks κ) (a : Agenda κ) (t : Timer κ) :
    (a.called cb t).ticks = a.ticks := by
  unfold Agenda.called
  split
  · rfl
  · exact ticks_acts (a.logged t) _

/-- **A turn** keeps the wheel and the agenda in step. -/
theorem InStep.turn (h : InStep w (t :: pending) a) (cb : Callbacks κ) (fired : ℕ) :
    (World.turn (World.env cb) (fired, w) t).1 = (Agenda.turn cb (fired, a) t).1 ∧
      InStep (World.turn (World.env cb) (fired, w) t).2 pending (Agenda.turn cb (fired, a) t).2 := by
  have hinv := (h.inv.turn (World.env cb) fired).1
  have hplans := (h.called cb t).plans.countOut t (w.cancelled t.id)
  obtain ⟨hslots, -⟩ := World.called_frame (World.env cb) w t
  rw [World.turn_eq] at hinv
  rw [World.turn_eq, Agenda.turn_eq, h.plans.cancelled]
  refine ⟨?_, ?_, hplans⟩
  · unfold World.callsOf
    split <;> rfl
  · show World.Inv _ pending (revolution (World.called (World.env cb) w t).wheel.slots
      (a.called cb t).ticks)
    rw [hslots, ticks_called]
    exact hinv

theorem InStep.turns {due : List (Timer κ)} (h : InStep w due a) (cb : Callbacks κ) (fired : ℕ) :
    (due.foldl (World.turn (World.env cb)) (fired, w)).1 =
        (due.foldl (Agenda.turn cb) (fired, a)).1 ∧
      InStep (due.foldl (World.turn (World.env cb)) (fired, w)).2 []
        (due.foldl (Agenda.turn cb) (fired, a)).2 := by
  induction due generalizing w a fired with
  | nil => exact ⟨rfl, h⟩
  | cons t due ih =>
    obtain ⟨hfired, hnext⟩ := h.turn cb fired
    have hrest := ih hnext (World.turn (World.env cb) (fired, w) t).1
    rw [List.foldl_cons, List.foldl_cons]
    rw [hfired] at hrest
    have hpair : World.turn (World.env cb) (fired, w) t =
        ((Agenda.turn cb (fired, a) t).1, (World.turn (World.env cb) (fired, w) t).2) := by
      rw [← hfired]
    rw [hpair]
    exact hrest

/-! ## The beginning of a tick -/

/-- The wheel and the agenda are in step between ticks. -/
structure Between (w : World κ) (a : Agenda κ) : Prop where
  ok : w.Ok
  plans : Plans a w
  ticks : a.ticks = w.wheel.now

theorem Plans.sorted_fires (h : Plans a w) :
    StableQueue.Sorted (fun e : Entry κ => e.timer.fires a.span) a.queue := by
  refine List.Pairwise.imp ?_ h.sorted
  intro e e' hle
  rw [Entry.key, Entry.key, Prod.Lex.toLex_le_toLex] at hle
  rw [h.span]
  rcases hle with hlt | ⟨heq, -⟩
  · exact Nat.le_of_lt hlt
  · exact Nat.le_of_eq heq

/-- A timer of the overflow list does not fire in the next tick. -/
theorem lt_fires_of_overflow (hw : w.Ok) (ht : t ∈ w.wheel.overflow) :
    w.wheel.now + 1 < t.fires w.wheel.slots := by
  have hpos := hw.pos
  have hplace := hw.overflow t ht
  have hwaits := hplace.waits
  have hlater : w.wheel.now < t.deadline := by
    by_contra hle
    have hrev : revolution w.wheel.slots t.deadline ≤ revolution w.wheel.slots w.wheel.now :=
      revolution_le (Nat.le_of_not_lt hle)
    omega
  by_cases hlate : t.Late w.wheel.slots
  · rw [Timer.fires_of_late hlate]
    omega
  · have hne : ¬ (t.deadline + 1) % w.wheel.slots = 0 := fun h => hlate (Or.inr ⟨hplace.far, h⟩)
    rw [Timer.fires_of_not_late hlate]
    by_contra hge
    have heq : t.deadline = w.wheel.now + 1 := by omega
    rw [heq, ← mod_eq_last_iff hpos] at hne
    rw [heq, revolution_of_ne hpos hne] at hwaits
    exact Nat.lt_irrefl _ hwaits

/-- The entries that are due in the next tick are the timers of its bucket. -/
theorem Between.due (h : Between w a) :
    (StableQueue.due (fun e : Entry κ => e.timer.fires a.span) a.queue (a.now + 1)).map (·.timer) =
      w.clockOn.wheel.drain.1 := by
  have hspan := h.plans.span
  have hnow := h.plans.now
  obtain ⟨near, far, hs⟩ := h.plans.split (w.wheel.now + 1)
  have hnone : far.map (·.timer) = [] := by
    rw [hs.overflow, List.filter_eq_nil_iff]
    intro t ht
    have := lt_fires_of_overflow h.ok ht
    simp only [firing, decide_eq_true_eq]
    omega
  have hfar : far = [] := List.map_eq_nil_iff.mp hnone
  have hqueue : (a.queue.filter fun e => e.timer.fires a.span ≤ a.now + 1) = near := by
    have hq := hs.queue
    rw [hfar, List.append_nil] at hq
    rw [← hq, hspan, hnow]
    refine List.filter_congr fun e he => ?_
    have hafter := h.plans.after e he
    unfold firing
    rw [decide_eq_decide]
    omega
  have hall : (w.wheel.bucket ((w.wheel.now + 1) % w.wheel.slots)).filter
      (firing w.wheel.slots (w.wheel.now + 1)) =
        w.wheel.bucket ((w.wheel.now + 1) % w.wheel.slots) := by
    rw [List.filter_eq_self]
    intro t ht
    exact decide_eq_true (h.ok.bucket _ t ht).fires_eq
  rw [StableQueue.due_eq_filter h.plans.sorted_fires, hqueue, hs.bucket, hall, h.ok.drain_eq]
  rfl

/-- The agenda at the beginning of the next tick. -/
def opened (a : Agenda κ) : Agenda κ :=
  { a with
    now := a.now + 1
    queue := StableQueue.rest (fun e => e.timer.fires a.span) a.queue (a.now + 1) }

theorem Between.mem_opened (h : Between w a) {e : Entry κ} (he : e ∈ a.opened.queue) :
    e ∈ a.queue ∧ w.wheel.now + 1 < e.timer.fires w.wheel.slots := by
  have hqueue : a.opened.queue =
      StableQueue.rest (fun e => e.timer.fires a.span) a.queue (a.now + 1) := rfl
  rw [hqueue, StableQueue.rest_eq_filter h.plans.sorted_fires, List.mem_filter] at he
  rw [← h.plans.now, ← h.plans.span]
  exact ⟨he.1, of_decide_eq_true he.2⟩

/-- The timers of the current bucket are off the wheel, and the others are where they were. -/
theorem bucket_drain_firing (hw : w.Ok) {n : ℕ} (hn : w.wheel.now + 1 < n) :
    (w.clockOn.wheel.drain.2.bucket (n % w.wheel.slots)).filter (firing w.wheel.slots n) =
      (w.wheel.bucket (n % w.wheel.slots)).filter (firing w.wheel.slots n) := by
  have hpos : 0 < w.clockOn.wheel.slots := hw.pos
  by_cases hi : n % w.wheel.slots = (w.wheel.now + 1) % w.wheel.slots
  · have hnone : ∀ t ∈ w.wheel.bucket ((w.wheel.now + 1) % w.wheel.slots),
        ¬ firing w.wheel.slots n t = true := by
      intro t ht
      have hfires := (hw.bucket _ t ht).fires_eq
      simp only [firing, decide_eq_true_eq]
      omega
    have hleft : w.clockOn.wheel.drain.2.bucket (n % w.wheel.slots) = [] := by
      rw [hi]
      exact hw.keep_eq_nil
    rw [hleft, hi, List.filter_eq_nil_iff.mpr hnone, List.filter_nil]
  · have hkept : w.clockOn.wheel.drain.2.bucket (n % w.wheel.slots) =
        w.wheel.bucket (n % w.wheel.slots) := HierarchicalTimingWheel.bucket_drain_of_ne hi
    rw [hkept]

theorem Between.open (h : Between w a) :
    InStep { w with wheel := w.clockOn.wheel.drain.2 } w.clockOn.wheel.drain.1 a.opened := by
  have hinv := (Inv.drain h.ok (v := w.clockOn.wheel) rfl).1
  obtain ⟨hvisible, hspan, hsorted, hafter, hsplit⟩ := h.plans
  refine ⟨?_, ?_, hspan, ?_, fun e he => (h.mem_opened he).2, fun n => ?_⟩
  · show World.Inv _ _ (revolution w.wheel.slots a.ticks)
    rw [h.ticks]
    exact hinv
  · have hopen : a.opened.toVisible = { a.toVisible with now := a.toVisible.now + 1 } := rfl
    rw [hopen, hvisible]
    rfl
  · exact List.Pairwise.sublist (List.dropWhile_sublist _) hsorted
  · rcases Nat.lt_or_ge (w.wheel.now + 1) n with hn | hn
    · obtain ⟨near, far, hs⟩ := hsplit n
      refine ⟨near, far, ?_, ?_, hs.overflow, hs.near_rank, hs.far_rank⟩
      · rw [← hs.queue]
        show (StableQueue.rest (fun e => e.timer.fires a.span) a.queue (a.now + 1)).filter _ = _
        rw [StableQueue.rest_eq_filter h.plans.sorted_fires, List.filter_filter, hspan, h.plans.now]
        refine List.filter_congr fun e _ => ?_
        show (Agenda.firing w.wheel.slots n e.timer && _) = Agenda.firing w.wheel.slots n e.timer
        unfold Agenda.firing
        rw [← Bool.decide_and, decide_eq_decide]
        omega
      · exact hs.bucket.trans (bucket_drain_firing h.ok hn).symm
    · refine ⟨[], [], ?_, ?_, ?_, fun e he => absurd he List.not_mem_nil,
        fun e he => absurd he List.not_mem_nil⟩
      · refine List.filter_eq_nil_iff.mpr fun e he => ?_
        have hlater := (h.mem_opened he).2
        show ¬ Agenda.firing w.wheel.slots n e.timer = true
        simp only [Agenda.firing, decide_eq_true_eq]
        omega
      · refine (List.filter_eq_nil_iff.mpr fun t ht => ?_).symm
        have hlater : w.wheel.now + 1 < t.fires w.wheel.slots :=
          (inBucket_drain h.ok (v := w.clockOn.wheel) rfl ht).after
        show ¬ Agenda.firing w.wheel.slots n t = true
        simp only [Agenda.firing, decide_eq_true_eq]
        omega
      · refine (List.filter_eq_nil_iff.mpr fun t ht => ?_).symm
        have hlater := lt_fires_of_overflow h.ok (show t ∈ w.wheel.overflow from ht)
        show ¬ Agenda.firing w.wheel.slots n t = true
        simp only [Agenda.firing, decide_eq_true_eq]
        omega

/-! ## The end of a tick -/

/-- The timers of the overflow list that fire in one tick are re-homed together, or stay together. -/
theorem rehomed_or_kept (hpos : 0 < w.wheel.slots)
    (hfar : ∀ t ∈ w.wheel.overflow, w.wheel.slots ≤ t.delay) (n : ℕ) :
    (∀ t ∈ w.wheel.overflow, firing w.wheel.slots n t = true →
      t.deadline < w.wheel.now + w.wheel.slots) ∨
    ∀ t ∈ w.wheel.overflow, firing w.wheel.slots n t = true →
      w.wheel.now + w.wheel.slots ≤ t.deadline := by
  by_cases h : ∃ t ∈ w.wheel.overflow, firing w.wheel.slots n t = true ∧
      t.deadline < w.wheel.now + w.wheel.slots
  · obtain ⟨t, ht, hfire, hrange⟩ := h
    refine Or.inl fun u hu hfire' => ?_
    simp only [firing, decide_eq_true_eq] at hfire hfire'
    have heq := deadline_eq_of_fires hpos (hfar t ht) (hfar u hu) (hfire.trans hfire'.symm)
    omega
  · refine Or.inr fun u hu hfire => ?_
    by_contra hlt
    exact h ⟨u, hu, hfire, by omega⟩

/-- Re-homing moves the timers that fire in one tick from the overflow list to the end of their
bucket, or it does not touch them. -/
theorem Split.endTick {near far : List (Entry κ)} (hs : Split w a n near far)
    (h : InStep w [] a) (hticks : a.ticks + 1 = w.wheel.now) :
    ∃ near' far', Split { w with wheel := w.wheel.endTick } { a with ticks := a.ticks + 1 } n near'
      far' := by
  have hpos := h.inv.pos
  obtain ⟨hslots, -, -⟩ := w.wheel.endTick_frame
  have hnear_rank : ∀ e ∈ near, e.rank ≤ 2 * (a.ticks + 1) := fun e he => by
    have := hs.near_rank e he
    omega
  by_cases hlast : w.wheel.now % w.wheel.slots = w.wheel.slots - 1
  · have hbucket := HierarchicalTimingWheel.bucket_endTick hpos hlast (n % w.wheel.slots)
    have hoverflow := HierarchicalTimingWheel.overflow_endTick hlast
    have hgo : ∀ t : Timer κ, Agenda.firing w.wheel.slots n t = true →
        (w.wheel.goesTo (n % w.wheel.slots) t = true ↔ t.deadline < w.wheel.now + w.wheel.slots) := by
      intro t hfire
      have hmod := t.fires_mod w.wheel.slots
      simp only [Agenda.firing, decide_eq_true_eq] at hfire
      rw [hfire] at hmod
      simp [HierarchicalTimingWheel.goesTo, hmod]
    rcases rehomed_or_kept hpos (fun t ht => (h.inv.overflow t ht).far) n with hall | hall
    · -- all of them are re-homed
      have hmoved : (w.wheel.overflow.filter (w.wheel.goesTo (n % w.wheel.slots))).filter
          (Agenda.firing w.wheel.slots n) =
            w.wheel.overflow.filter (Agenda.firing w.wheel.slots n) := by
        rw [List.filter_filter]
        refine List.filter_congr fun t ht => ?_
        by_cases hfire : Agenda.firing w.wheel.slots n t = true
        · rw [hfire, (hgo t hfire).mpr (hall t ht hfire)]
          rfl
        · rw [Bool.not_eq_true] at hfire
          rw [hfire]
          rfl
      have hleft : (w.wheel.overflow.filter w.wheel.overflows).filter
          (Agenda.firing w.wheel.slots n) = [] := by
        rw [List.filter_filter, List.filter_eq_nil_iff]
        intro t ht hc
        obtain ⟨hfire, hover⟩ := Bool.and_eq_true_iff.mp hc
        have hrange := hall t ht hfire
        simp only [HierarchicalTimingWheel.overflows, decide_eq_true_eq] at hover
        omega
      refine ⟨near ++ far, [], ?_, ?_, ?_, ?_, fun e he => absurd he List.not_mem_nil⟩
      · show a.queue.filter (fun e => Agenda.firing w.wheel.endTick.slots n e.timer) = _
        rw [hslots, hs.queue, List.append_nil]
      · show _ = (w.wheel.endTick.bucket (n % w.wheel.endTick.slots)).filter
          (Agenda.firing w.wheel.endTick.slots n)
        rw [hslots, hbucket, List.filter_append, hmoved, List.map_append, hs.bucket, hs.overflow]
      · show [] = w.wheel.endTick.overflow.filter (Agenda.firing w.wheel.endTick.slots n)
        rw [hslots, hoverflow, hleft]
      · intro e he
        rcases List.mem_append.mp he with he | he
        · exact hnear_rank e he
        · have hrange := hall _ (hs.mem_overflow he) (hs.firing (List.mem_append_right near he))
          rw [hs.far_rank e he]
          rw [← hticks] at hlast hrange
          exact farRank_le hpos hlast hrange
    · -- all of them stay
      have hmoved : (w.wheel.overflow.filter (w.wheel.goesTo (n % w.wheel.slots))).filter
          (Agenda.firing w.wheel.slots n) = [] := by
        rw [List.filter_filter, List.filter_eq_nil_iff]
        intro t ht hc
        obtain ⟨hfire, hgoes⟩ := Bool.and_eq_true_iff.mp hc
        have hrange := (hgo t hfire).mp hgoes
        have hkept := hall t ht hfire
        omega
      have hleft : (w.wheel.overflow.filter w.wheel.overflows).filter
          (Agenda.firing w.wheel.slots n) =
            w.wheel.overflow.filter (Agenda.firing w.wheel.slots n) := by
        rw [List.filter_filter]
        refine List.filter_congr fun t ht => ?_
        by_cases hfire : Agenda.firing w.wheel.slots n t = true
        · have hkept := hall t ht hfire
          simp [hfire, HierarchicalTimingWheel.overflows, hkept]
        · rw [Bool.not_eq_true] at hfire
          rw [hfire]
          rfl
      refine ⟨near, far, ?_, ?_, ?_, hnear_rank, ?_⟩
      · show a.queue.filter (fun e => Agenda.firing w.wheel.endTick.slots n e.timer) = _
        rw [hslots, hs.queue]
      · show _ = (w.wheel.endTick.bucket (n % w.wheel.endTick.slots)).filter
          (Agenda.firing w.wheel.endTick.slots n)
        rw [hslots, hbucket, List.filter_append, hmoved, List.append_nil, hs.bucket]
      · show _ = w.wheel.endTick.overflow.filter (Agenda.firing w.wheel.endTick.slots n)
        rw [hslots, hoverflow, hleft, hs.overflow]
      · show ∀ e ∈ far, e.rank = farRank w.wheel.endTick.slots e.timer
        rw [hslots]
        exact hs.far_rank
  · refine ⟨near, far, ?_, ?_, ?_, hnear_rank, ?_⟩ <;>
      rw [HierarchicalTimingWheel.endTick_of_ne hlast]
    · exact hs.queue
    · exact hs.bucket
    · exact hs.overflow
    · exact hs.far_rank

theorem InStep.close (h : InStep w [] a) (hticks : a.ticks + 1 = w.wheel.now) :
    Between { w with wheel := w.wheel.endTick } { a with ticks := a.ticks + 1 } := by
  obtain ⟨hslots, hnow, hsize⟩ := w.wheel.endTick_frame
  have hinv : w.Inv [] (w.wheel.now / w.wheel.slots) := by
    have hedge := h.inv
    unfold revolution at hedge
    rwa [hticks] at hedge
  obtain ⟨hvisible, hspan, hsorted, hafter, hsplit⟩ := h.plans
  refine ⟨?_, ⟨?_, hspan.trans hslots.symm, ?_, ?_, fun n => ?_⟩, hticks.trans hnow.symm⟩
  · show World.Inv _ _ (revolution w.wheel.endTick.slots w.wheel.endTick.now)
    rw [hslots, hnow]
    exact hinv.endTick.1
  · refine hvisible.trans ?_
    unfold World.visible
    rw [hnow, hsize]
  · show StableQueue.Sorted (Entry.key w.wheel.endTick.slots) a.queue
    rw [hslots]
    exact hsorted
  · show ∀ e ∈ a.queue, w.wheel.endTick.now < e.timer.fires w.wheel.endTick.slots
    rw [hslots, hnow]
    exact hafter
  · obtain ⟨near, far, hs⟩ := hsplit n
    exact hs.endTick h hticks

/-! ## Ticks, operations and runs -/

theorem ticks_turns (cb : Callbacks κ) (due : List (Timer κ)) (fired : ℕ) (a : Agenda κ) :
    (due.foldl (Agenda.turn cb) (fired, a)).2.ticks = a.ticks := by
  induction due generalizing fired a with
  | nil => rfl
  | cons t due ih =>
    have hone : (Agenda.turn cb (fired, a) t).2.ticks = a.ticks := by
      rw [Agenda.turn_eq]
      exact ticks_called cb a t
    exact (ih _ _).trans hone

/-- **A tick** of the wheel is a tick of the agenda. -/
theorem Between.round (h : Between w a) (cb : Callbacks κ) :
    (World.round (World.env cb) w).1 = (Agenda.tick cb a).1 ∧
      Between (World.round (World.env cb) w).2 (Agenda.tick cb a).2 := by
  have hopen := h.open
  obtain ⟨hfired, hturns⟩ := hopen.turns cb 0
  have hround := World.round_eq (World.env cb) w (v := w.clockOn.wheel) rfl rfl
  have htick : Agenda.tick cb a =
      ((w.clockOn.wheel.drain.1.foldl (Agenda.turn cb) (0, a.opened)).1,
        { (w.clockOn.wheel.drain.1.foldl (Agenda.turn cb) (0, a.opened)).2 with
          ticks := (w.clockOn.wheel.drain.1.foldl (Agenda.turn cb) (0, a.opened)).2.ticks + 1 }) := by
    rw [← h.due]
    rfl
  rw [hround, htick]
  refine ⟨hfired, hturns.close ?_⟩
  obtain ⟨new, -, -, -, hnow, -⟩ := World.turns_foldl_log (World.env cb) w.clockOn.wheel.drain.1 0
    { w with wheel := w.clockOn.wheel.drain.2 }
  rw [ticks_turns, hnow]
  show a.ticks + 1 = w.wheel.now + 1
  rw [h.ticks]

theorem Between.advanceLoop (h : Between w a) (cb : Callbacks κ) (target : ℤ) (n fired : ℕ)
    (hn : n = (target - w.wheel.now).toNat) :
    (World.advanceLoop (World.env cb) target n fired w).1 = (Agenda.tickAll cb n fired a).1 ∧
      Between (World.advanceLoop (World.env cb) target n fired w).2
        (Agenda.tickAll cb n fired a).2 := by
  induction n generalizing w a fired with
  | zero => exact ⟨rfl, h⟩
  | succ n ih =>
    obtain ⟨hfired, hnext⟩ := h.round cb
    obtain ⟨-, hnow, -⟩ := h.ok.round (World.env cb)
    have hlt : (w.wheel.now : ℤ) < target := by omega
    have hrest := ih hnext (fired + (World.round (World.env cb) w).1) (by rw [hnow]; omega)
    rw [World.advanceLoop_succ, if_pos hlt]
    rw [hfired] at hrest ⊢
    exact hrest

/-- **An operation** of the wheel is one of the agenda. -/
theorem simulates (cb : Callbacks κ) :
    Answers.Simulates Between (World.perform cb) (Agenda.perform cb) := by
  intro w a o h
  cases o with
  | schedule delay callback =>
    unfold World.perform World.schedule Agenda.perform
    by_cases hd : delay < 0
    · simp only [if_pos hd]
      exact ⟨trivial, h⟩
    · have hstep : InStep w [] a := ⟨h.ticks ▸ h.ok, h.plans⟩
      have hnext := hstep.act (.schedule delay.toNat callback)
      simp only [if_neg hd, h.plans.nextTimer]
      refine ⟨trivial, (h.ok.register delay.toNat callback).1, hnext.plans, ?_⟩
      rw [now_register]
      exact h.ticks
  | setCancelled id cancelled =>
    have hstep : InStep w [] a := ⟨h.ticks ▸ h.ok, h.plans⟩
    have hnext := hstep.act (.setCancelled id cancelled)
    exact ⟨rfl, h.ok.setCancelled id cancelled, hnext.plans, h.ticks⟩
  | advance target =>
    obtain ⟨hfired, hnext⟩ := h.advanceLoop cb target _ 0 rfl
    unfold World.perform Agenda.perform World.advance
    rw [h.plans.now]
    exact ⟨congrArg Answer.advanced hfired, hnext⟩

theorem between_new (slotsPerWheel levels : ℕ) (h : 0 < slotsPerWheel) :
    Between (World.new slotsPerWheel levels : World κ) (Agenda.new slotsPerWheel levels) := by
  refine ⟨World.ok_new slotsPerWheel levels h, ⟨rfl, rfl, .nil, fun e he => absurd he List.not_mem_nil,
    fun n => ⟨[], [], rfl, ?_, rfl, fun e he => absurd he List.not_mem_nil,
      fun e he => absurd he List.not_mem_nil⟩⟩, rfl⟩
  have hempty : ∀ i, (World.new slotsPerWheel levels : World κ).wheel.bucket i = [] :=
    fun i => Buckets.get_replicate _ i
  rw [hempty]
  rfl

theorem perform_snd (cb : Callbacks κ) (w : World κ) (o : World.Op κ) :
    (World.perform cb w o).2 = World.op (World.env cb) w o := by
  cases o with
  | schedule delay callback =>
    by_cases hd : delay < 0
    · simp only [World.perform, World.op, World.schedule, if_pos hd]
    · simp only [World.perform, World.op, World.schedule, if_neg hd]
  | setCancelled id cancelled => rfl
  | advance target => rfl

theorem runAll_perform (cb : Callbacks κ) (w : World κ) (ops : List (World.Op κ)) :
    (Answers.runAll (World.perform cb) w ops).2 = World.run (World.env cb) w ops := by
  induction ops generalizing w with
  | nil => rfl
  | cons o ops ih =>
    have hrest := ih (World.perform cb w o).2
    rw [perform_snd cb w o] at hrest
    show (Answers.runAll (World.perform cb) (World.perform cb w o).2 ops).2 = _
    rw [perform_snd, hrest]
    rfl

/-- **The wheel follows the agenda**: in every run, with any callbacks, the caller is given the
answers of the agenda, and all that is visible at the end is what the agenda shows. -/
theorem wheel_follows (slotsPerWheel levels : ℕ) (h : 0 < slotsPerWheel) (cb : Callbacks κ)
    (ops : List (World.Op κ)) :
    (Answers.runAll (World.perform cb) (.new slotsPerWheel levels) ops).1 =
        (Answers.runAll (Agenda.perform cb) (.new slotsPerWheel levels) ops).1 ∧
      (World.run (World.env cb) (.new slotsPerWheel levels) ops).visible =
        (Answers.runAll (Agenda.perform cb) (.new slotsPerWheel levels) ops).2.toVisible := by
  obtain ⟨hanswers, hend⟩ := (simulates cb).runAll (between_new slotsPerWheel levels h) ops
  rw [← runAll_perform]
  exact ⟨hanswers, hend.plans.visible.symm⟩

/-- A far timer that is re-homed in the tick 3, and then a near one with the same deadline, whose
callback schedules another timer. -/
theorem wheel_follows_six :
    (World.run (World.env fun k _ => if k = 2 then [.schedule 1 3] else []) (.new 4 1 : World ℕ)
        [.schedule 6 1, .advance 3, .schedule 3 2, .advance 7]).visible.calls.map
        (fun c => (c.now, c.timer.callback)) = [(6, 1), (6, 2), (7, 3)] := by
  obtain ⟨-, hvisible⟩ := wheel_follows 4 1 (by decide)
    (fun k _ => if k = 2 then [.schedule 1 3] else [])
    [.schedule 6 1, .advance 3, .schedule 3 2, .advance 7]
  rw [hvisible]
  decide

end Agenda

end DurableExecution
