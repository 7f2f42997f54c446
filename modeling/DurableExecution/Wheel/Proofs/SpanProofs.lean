import DurableExecution.Wheel.Span
import DurableExecution.Wheel.Proofs.AgendaProofs

/-!
# Proofs: wheels with different spans

The agendas of the two wheels are compared, since an agenda has no buckets and no overflow list: the
span occurs in the keys of its entries only. While all timers are near, the keys are the same. When
far timers fire in the same ticks, the queues hold the same timers, and the order of a tick does not
matter to callbacks that do not touch the wheel.
-/

namespace DurableExecution

variable {κ : Type}

namespace Agenda

open World

variable {a b : Agenda κ} {w v : World κ} {m n : ℕ} {t : Timer κ} {cb : Callbacks κ}

theorem tickAll_succ (cb : Callbacks κ) (count fired : ℕ) (a : Agenda κ) :
    tickAll cb (count + 1) fired a = tickAll cb count (fired + (tick cb a).1) (tick cb a).2 := rfl

theorem visible_register (a : Agenda κ) (delay : ℕ) (callback : κ) :
    (a.register delay callback).toVisible = { a.toVisible with
      size := a.size + 1
      cancelled := Function.update a.cancelled a.created false
      created := a.created + 1 } := rfl

theorem queue_register (a : Agenda κ) (delay : ℕ) (callback : κ) :
    (a.register delay callback).queue = StableQueue.insert (Entry.key a.span) a.queue
      ⟨a.nextTimer delay callback, a.rankOf (a.nextTimer delay callback)⟩ := rfl

/-! ## Near timers -/

/-- A near timer with a positive delay is on time. -/
theorem fires_of_near {slots : ℕ} (hdelay : 0 < t.delay) (hnear : t.delay < slots) :
    t.fires slots = t.deadline := by
  apply Timer.fires_of_not_late
  rintro (hzero | ⟨hfar, -⟩)
  · omega
  · omega

/-- Two agendas with the spans `m` and `n` that differ in nothing else. All timers are near for
both. -/
structure Alike (m n : ℕ) (a b : Agenda κ) : Prop where
  span₁ : a.span = m
  span₂ : b.span = n
  visible : a.toVisible = b.toVisible
  queue : a.queue = b.queue
  ticks : a.ticks = b.ticks
  near : ∀ e ∈ a.queue, 0 < e.timer.delay ∧ e.timer.delay < m ∧ e.timer.delay < n

theorem Alike.now (h : Alike m n a b) : a.now = b.now := congrArg Visible.now h.visible

theorem Alike.cancelled (h : Alike m n a b) : a.cancelled = b.cancelled :=
  congrArg Visible.cancelled h.visible

theorem Alike.fires (h : Alike m n a b) {e : Entry κ} (he : e ∈ a.queue) :
    e.timer.fires a.span = e.timer.fires b.span := by
  obtain ⟨hdelay, h₁, h₂⟩ := h.near e he
  rw [h.span₁, h.span₂, fires_of_near hdelay h₁, fires_of_near hdelay h₂]

/-- What changes only what is visible keeps the rest. -/
theorem Alike.of_visible (h : Alike m n a b) {x y : Visible κ} (hxy : x = y) :
    Alike m n { a with toVisible := x } { b with toVisible := y } :=
  ⟨h.span₁, h.span₂, hxy, h.queue, h.ticks, h.near⟩

theorem Alike.nextTimer (h : Alike m n a b) (delay : ℕ) (callback : κ) :
    a.nextTimer delay callback = b.nextTimer delay callback := by
  have hcreated : a.created = b.created := congrArg Visible.created h.visible
  unfold Agenda.nextTimer
  rw [h.now, hcreated]

theorem Alike.register (h : Alike m n a b) (delay : ℕ) (callback : κ) (hdelay : 0 < delay)
    (h₁ : delay < m) (h₂ : delay < n) :
    Alike m n (a.register delay callback) (b.register delay callback) := by
  have ht := h.nextTimer delay callback
  have hrank : a.rankOf (a.nextTimer delay callback) = b.rankOf (b.nextTimer delay callback) := by
    have hnear₁ : delay < a.span := h.span₁ ▸ h₁
    have hnear₂ : delay < b.span := h.span₂ ▸ h₂
    have hrank₁ : a.rankOf (a.nextTimer delay callback) = 2 * a.ticks := if_pos hnear₁
    have hrank₂ : b.rankOf (b.nextTimer delay callback) = 2 * b.ticks := if_pos hnear₂
    rw [hrank₁, hrank₂, h.ticks]
  have hkey : ∀ e : Entry κ, e.timer.fires a.span = e.timer.fires b.span →
      Entry.key a.span e = Entry.key b.span e := fun e he => by rw [Entry.key, Entry.key, he]
  have hnew : (a.nextTimer delay callback).fires a.span =
      (a.nextTimer delay callback).fires b.span := by
    rw [h.span₁, h.span₂, fires_of_near (t := a.nextTimer delay callback) hdelay h₁,
      fires_of_near (t := a.nextTimer delay callback) hdelay h₂]
  refine ⟨h.span₁, h.span₂, ?_, ?_, h.ticks, ?_⟩
  · have hsize : a.size = b.size := congrArg Visible.size h.visible
    have hcreated : a.created = b.created := congrArg Visible.created h.visible
    rw [visible_register, visible_register, hsize, hcreated, h.cancelled, h.visible]
  · rw [queue_register, queue_register, ← hrank, ← ht, ← h.queue]
    exact StableQueue.insert_congr (fun e he => hkey e (h.fires he)) (hkey _ hnew)
  · intro e he
    rw [queue_register, StableQueue.mem_insert] at he
    rcases he with rfl | he
    · exact ⟨hdelay, h₁, h₂⟩
    · exact h.near e he

theorem Alike.act (h : Alike m n a b) {x : Act κ} (hx : x.Near m n) :
    Alike m n (a.act x) (b.act x) := by
  cases x with
  | schedule delay callback =>
    obtain ⟨hdelay, h₁, h₂⟩ := hx
    exact h.register delay callback hdelay h₁ h₂
  | setCancelled id cancelled =>
    apply h.of_visible
    rw [h.visible]

theorem Alike.acts (h : Alike m n a b) {xs : List (Act κ)} (hxs : ∀ x ∈ xs, x.Near m n) :
    Alike m n (xs.foldl Agenda.act a) (xs.foldl Agenda.act b) := by
  induction xs generalizing a b with
  | nil => exact h
  | cons x xs ih =>
    obtain ⟨hx, hrest⟩ := List.forall_mem_cons.mp hxs
    exact ih (h.act hx) hrest

theorem Alike.called (h : Alike m n a b) (hcb : ∀ k x, ∀ y ∈ cb k x, Act.Near m n y)
    (t : Timer κ) : Alike m n (a.called cb t) (b.called cb t) := by
  unfold Agenda.called
  rw [h.cancelled]
  split
  · exact h
  · have hlogged : Alike m n (a.logged t) (b.logged t) := by
      apply h.of_visible
      rw [h.visible]
    have hacts := hlogged.acts (hcb t.callback (a.logged t).toVisible)
    have hcall : b.call cb t = (cb t.callback (b.logged t).toVisible).foldl Agenda.act (b.logged t) :=
      rfl
    rw [hcall, ← hlogged.visible]
    exact hacts

theorem Alike.turns (h : Alike m n a b) (hcb : ∀ k x, ∀ y ∈ cb k x, Act.Near m n y)
    (due : List (Timer κ)) (fired : ℕ) :
    (due.foldl (Agenda.turn cb) (fired, a)).1 = (due.foldl (Agenda.turn cb) (fired, b)).1 ∧
      Alike m n (due.foldl (Agenda.turn cb) (fired, a)).2
        (due.foldl (Agenda.turn cb) (fired, b)).2 := by
  induction due generalizing a b fired with
  | nil => exact ⟨rfl, h⟩
  | cons t due ih =>
    have hcalled := h.called hcb t
    have hout : Alike m n ((a.called cb t).countOut t (a.cancelled t.id))
        ((b.called cb t).countOut t (a.cancelled t.id)) := by
      apply hcalled.of_visible
      rw [hcalled.visible]
    rw [List.foldl_cons, List.foldl_cons, Agenda.turn_eq, Agenda.turn_eq, ← h.cancelled]
    exact ih hout _

/-- **A tick** of two agendas for which all timers are near. -/
theorem Alike.tick (h : Alike m n a b) (hcb : ∀ k x, ∀ y ∈ cb k x, Act.Near m n y) :
    (Agenda.tick cb a).1 = (Agenda.tick cb b).1 ∧
      Alike m n (Agenda.tick cb a).2 (Agenda.tick cb b).2 := by
  have hfires : ∀ e ∈ a.queue, e.timer.fires a.span = e.timer.fires b.span := fun e he => h.fires he
  have hdue : StableQueue.due (fun e => e.timer.fires a.span) a.queue (a.now + 1) =
      StableQueue.due (fun e => e.timer.fires b.span) b.queue (b.now + 1) := by
    rw [← h.queue, ← h.now]
    exact StableQueue.due_congr hfires _
  have hopened : Alike m n a.opened b.opened := by
    refine ⟨h.span₁, h.span₂, ?_, ?_, h.ticks, fun e he => ?_⟩
    · have hview : ∀ x : Agenda κ, x.opened.toVisible =
          { x.toVisible with now := x.toVisible.now + 1 } := fun _ => rfl
      rw [hview, hview, h.visible]
    · show StableQueue.rest _ a.queue _ = StableQueue.rest _ b.queue _
      rw [← h.queue, ← h.now]
      exact StableQueue.rest_congr hfires _
    · exact h.near e ((List.dropWhile_sublist _).subset he)
  obtain ⟨hfired, hend⟩ := hopened.turns hcb
    ((StableQueue.due (fun e => e.timer.fires a.span) a.queue (a.now + 1)).map (·.timer)) 0
  have htick : Agenda.tick cb b =
      let r := ((StableQueue.due (fun e => e.timer.fires a.span) a.queue (a.now + 1)).map
        (·.timer)).foldl (Agenda.turn cb) (0, b.opened)
      (r.1, { r.2 with ticks := r.2.ticks + 1 }) := by
    rw [hdue]
    rfl
  rw [htick]
  exact ⟨hfired, hend.span₁, hend.span₂, hend.visible, hend.queue, congrArg (· + 1) hend.ticks,
    hend.near⟩

theorem Alike.tickAll (h : Alike m n a b) (hcb : ∀ k x, ∀ y ∈ cb k x, Act.Near m n y)
    (count fired : ℕ) :
    (Agenda.tickAll cb count fired a).1 = (Agenda.tickAll cb count fired b).1 ∧
      Alike m n (Agenda.tickAll cb count fired a).2 (Agenda.tickAll cb count fired b).2 := by
  induction count generalizing a b fired with
  | zero => exact ⟨rfl, h⟩
  | succ count ih =>
    obtain ⟨hfired, hnext⟩ := h.tick hcb
    rw [tickAll_succ, tickAll_succ, ← hfired]
    exact ih hnext _

/-- **An operation** that schedules near timers only. -/
theorem simulatesOn_near (hcb : ∀ k x, ∀ y ∈ cb k x, Act.Near m n y) :
    Answers.SimulatesOn (fun _ o => o.Near m n) (Alike m n) (Agenda.perform cb)
      (Agenda.perform cb) := by
  intro a b o h ho
  cases o with
  | schedule delay callback =>
    obtain ⟨hdelay, h₁, h₂⟩ := ho
    unfold Agenda.perform
    by_cases hneg : delay < 0
    · simp only [if_pos hneg]
      exact ⟨trivial, h⟩
    · have hnext := h.register delay.toNat callback (by omega) (by omega) (by omega)
      simp only [if_neg hneg, h.nextTimer]
      exact ⟨trivial, hnext⟩
  | setCancelled id cancelled => exact ⟨rfl, h.act (x := .setCancelled id cancelled) trivial⟩
  | advance target =>
    obtain ⟨hfired, hend⟩ := h.tickAll hcb (target - a.now).toNat 0
    unfold Agenda.perform
    rw [← h.now]
    exact ⟨congrArg Answer.advanced hfired, hend⟩

/-- A run of the wheel and that of its agenda. -/
theorem run_agenda (slotsPerWheel levels : ℕ) (h : 0 < slotsPerWheel) (cb : Callbacks κ)
    (ops : List (World.Op κ)) :
    (Answers.runAll (World.perform cb) (.new slotsPerWheel levels) ops).1 =
        (Answers.runAll (Agenda.perform cb) (.new slotsPerWheel levels) ops).1 ∧
      Between (World.run (World.env cb) (.new slotsPerWheel levels) ops)
        (Answers.runAll (Agenda.perform cb) (.new slotsPerWheel levels) ops).2 := by
  obtain ⟨hanswers, hend⟩ := (simulates cb).runAll (between_new slotsPerWheel levels h) ops
  rw [runAll_perform] at hend
  exact ⟨hanswers, hend⟩

/-- **The span cannot be seen while all timers are near.** Two wheels of any spans give the same
answers, and the same is visible of them, for all callbacks and operations that schedule timers with
positive delays below both spans. -/
theorem span_unobservable (slotsPerWheel levels slotsPerWheel' levels' : ℕ) (h : 0 < slotsPerWheel)
    (h' : 0 < slotsPerWheel') (cb : Callbacks κ)
    (hcb : ∀ k v, ∀ x ∈ cb k v,
      Act.Near (slotsPerWheel * max levels 1) (slotsPerWheel' * max levels' 1) x)
    (ops : List (World.Op κ))
    (hops : ∀ o ∈ ops, o.Near (slotsPerWheel * max levels 1) (slotsPerWheel' * max levels' 1)) :
    (Answers.runAll (World.perform cb) (.new slotsPerWheel levels) ops).1 =
        (Answers.runAll (World.perform cb) (.new slotsPerWheel' levels') ops).1 ∧
      (World.run (World.env cb) (.new slotsPerWheel levels) ops).visible =
        (World.run (World.env cb) (.new slotsPerWheel' levels') ops).visible := by
  have hnew : Alike (slotsPerWheel * max levels 1) (slotsPerWheel' * max levels' 1)
      (Agenda.new slotsPerWheel levels : Agenda κ) (Agenda.new slotsPerWheel' levels') :=
    ⟨rfl, rfl, rfl, rfl, rfl, fun e he => absurd he List.not_mem_nil⟩
  obtain ⟨hanswers, hend⟩ := (simulatesOn_near hcb).runAll hnew
    (Answers.allowed_of_forall (fun o ho _ => hops o ho) _)
  obtain ⟨hfirst, hbetween⟩ := run_agenda slotsPerWheel levels h cb ops
  obtain ⟨hsecond, hbetween'⟩ := run_agenda slotsPerWheel' levels' h' cb ops
  rw [hfirst, hsecond, ← hbetween.plans.visible, ← hbetween'.plans.visible]
  exact ⟨hanswers, hend.visible⟩

/-- A callback that arms its timer again, on a wheel with four slots and on one with twice three. -/
theorem span_unobservable_four_six :
    (World.run (World.env fun k _ => if k = 2 then [.schedule 3 2] else []) (.new 4 1 : World ℕ)
        [.schedule 2 1, .schedule 1 2, .advance 9]).visible =
      (World.run (World.env fun k _ => if k = 2 then [.schedule 3 2] else []) (.new 3 2 : World ℕ)
        [.schedule 2 1, .schedule 1 2, .advance 9]).visible := by
  apply (span_unobservable 4 1 3 2 (by decide) (by decide)
    (fun k _ => if k = 2 then [.schedule 3 2] else []) ?_
    [.schedule 2 1, .schedule 1 2, .advance 9] ?_).2
  · intro k v x hx
    split at hx
    · rcases List.mem_singleton.mp hx with rfl
      exact ⟨by decide, by decide, by decide⟩
    · exact absurd hx List.not_mem_nil
  · simp [World.Op.Near]

/-! ## Callbacks that do not touch the wheel -/

/-- The timers of the queue. -/
def planned (a : Agenda κ) : List (Timer κ) := a.queue.map (·.timer)

/-- Those that are due in the next tick, and those that are not. -/
def dueNext (a : Agenda κ) : List (Timer κ) := a.planned.filter fun t => t.fires a.span ≤ a.now + 1

def later (a : Agenda κ) : List (Timer κ) := a.planned.filter fun t => a.now + 1 < t.fires a.span

/-- Those whose callbacks run. -/
def live (a : Agenda κ) (due : List (Timer κ)) : List (Timer κ) :=
  due.filter fun t => !a.cancelled t.id

theorem turns_quiet (due : List (Timer κ)) (fired : ℕ) (a : Agenda κ) :
    ∃ turns, due.foldl (Agenda.turn .quiet) (fired, a) = (fired + (a.live due).length,
      { a with
        size := a.size - due.length
        turns
        calls := a.calls ++ (a.live due).map fun t => ⟨a.now, t⟩ }) := by
  induction due generalizing fired a with
  | nil => exact ⟨a.turns, by simp [live]⟩
  | cons t due ih =>
    have hsize : a.size - 1 - due.length = a.size - (due.length + 1 : ℕ) := by omega
    rw [List.foldl_cons, Agenda.turn_eq]
    cases hcancelled : a.cancelled t.id with
    | true =>
      have hcalled : a.called .quiet t = a := if_pos hcancelled
      obtain ⟨turns, hrest⟩ := ih fired (a.countOut t true)
      have hlive : a.live (t :: due) = a.live due := List.filter_cons_of_neg (by simp [hcancelled])
      refine ⟨turns, ?_⟩
      rw [hcalled, hlive]
      refine hrest.trans ?_
      simp only [countOut, live, List.length_cons]
      rw [hsize]
    | false =>
      have hcalled : a.called .quiet t = a.logged t := if_neg (by simp [hcancelled])
      obtain ⟨turns, hrest⟩ := ih (fired + 1) ((a.logged t).countOut t false)
      have hlive : a.live (t :: due) = t :: a.live due := List.filter_cons_of_pos (by simp [hcancelled])
      refine ⟨turns, ?_⟩
      rw [hcalled, hlive]
      refine hrest.trans ?_
      simp only [countOut, logged, live, List.length_cons, List.map_cons, List.append_assoc,
        List.singleton_append]
      rw [hsize, Nat.add_assoc fired 1, Nat.add_comm 1]

/-- The tick of an agenda whose callbacks do not touch the wheel. -/
structure QuietTick (a : Agenda κ) (fired : ℕ) (a' : Agenda κ) : Prop where
  fired : fired = (a.live a.dueNext).length
  span : a'.span = a.span
  now : a'.now = a.now + 1
  size : a'.size = a.size - a.dueNext.length
  cancelled : a'.cancelled = a.cancelled
  created : a'.created = a.created
  planned : a'.planned = a.later
  calls : a'.calls = a.calls ++ (a.live a.dueNext).map fun t => ⟨a.now + 1, t⟩

theorem quietTick (h : Between w a) :
    QuietTick a (Agenda.tick .quiet a).1 (Agenda.tick .quiet a).2 := by
  have hdue : (StableQueue.due (fun e : Entry κ => e.timer.fires a.span) a.queue (a.now + 1)).map
      (·.timer) = a.dueNext := by
    unfold Agenda.dueNext planned
    rw [StableQueue.due_eq_filter h.plans.sorted_fires, List.filter_map]
    rfl
  have hrest : a.opened.planned = a.later := by
    show (StableQueue.rest (fun e : Entry κ => e.timer.fires a.span) a.queue (a.now + 1)).map
      (·.timer) = a.later
    unfold Agenda.later planned
    rw [StableQueue.rest_eq_filter h.plans.sorted_fires, List.filter_map]
    rfl
  obtain ⟨turns, hturns⟩ := turns_quiet a.dueNext 0 a.opened
  have htick : Agenda.tick .quiet a =
      let r := a.dueNext.foldl (Agenda.turn .quiet) (0, a.opened)
      (r.1, { r.2 with ticks := r.2.ticks + 1 }) := by
    rw [← hdue]
    rfl
  rw [htick, hturns]
  exact ⟨Nat.zero_add _, rfl, rfl, rfl, rfl, rfl, hrest, rfl⟩

/-- An agenda that follows a wheel with `slots` slots, between ticks. Its size is the number of timers
in the queue. -/
structure Steady (slots : ℕ) (a : Agenda κ) : Prop where
  span : a.span = slots
  wheel : ∃ w, Between w a
  counted : a.size = a.planned.length

theorem Steady.after (h : Steady n a) (ht : t ∈ a.planned) : a.now < t.fires n := by
  obtain ⟨hspan, ⟨w, hw⟩, -⟩ := h
  obtain ⟨e, he, rfl⟩ := List.mem_map.mp ht
  have hafter := hw.plans.after e he
  rwa [← hw.plans.now, ← hw.plans.span, hspan] at hafter

theorem Steady.quietTick (h : Steady n a) :
    QuietTick a (Agenda.tick .quiet a).1 (Agenda.tick .quiet a).2 := by
  obtain ⟨w, hw⟩ := h.wheel
  exact Agenda.quietTick hw

/-- Every timer of the queue is due in the next tick, or later. -/
theorem length_planned (a : Agenda κ) : a.planned.length = a.dueNext.length + a.later.length := by
  have hsplit := a.planned.length_eq_length_filter_add fun t => t.fires a.span ≤ a.now + 1
  have hlater : (a.planned.filter fun t => !decide (t.fires a.span ≤ a.now + 1)) = a.later := by
    refine List.filter_congr fun t _ => ?_
    rw [← decide_not, decide_eq_decide]
    exact Nat.not_le
  rw [hlater] at hsplit
  exact hsplit

theorem Steady.tick (h : Steady n a) : Steady n (Agenda.tick .quiet a).2 := by
  obtain ⟨hspan, ⟨w, hw⟩, hcounted⟩ := h
  have hquiet := Agenda.quietTick hw
  refine ⟨hquiet.span.trans hspan, ⟨_, (hw.round .quiet).2⟩, ?_⟩
  have hlength := a.length_planned
  rw [hquiet.size, hquiet.planned, hcounted]
  omega

/-- **Any number of ticks** leave what fires after them. -/
theorem Steady.tickAll (h : Steady n a) (count fired : ℕ) :
    Steady n (Agenda.tickAll .quiet count fired a).2 ∧
      (Agenda.tickAll .quiet count fired a).2.now = a.now + count ∧
      (Agenda.tickAll .quiet count fired a).2.planned =
        a.planned.filter fun t => a.now + count < t.fires n := by
  induction count generalizing a fired with
  | zero =>
    refine ⟨h, rfl, ?_⟩
    refine (List.filter_eq_self.mpr fun t ht => ?_).symm
    exact decide_eq_true (h.after ht)
  | succ count ih =>
    have hquiet := h.quietTick
    obtain ⟨hsteady, hnow, hplanned⟩ := ih h.tick (fired + (Agenda.tick .quiet a).1)
    rw [tickAll_succ]
    refine ⟨hsteady, ?_, ?_⟩
    · rw [hnow, hquiet.now]
      omega
    · rw [hplanned, hquiet.planned, hquiet.now, Agenda.later, List.filter_filter, h.span]
      refine List.filter_congr fun t _ => ?_
      rw [← Bool.decide_and, decide_eq_decide]
      omega

theorem planned_register (a : Agenda κ) (delay : ℕ) (callback : κ) :
    (a.register delay callback).planned.Perm (a.nextTimer delay callback :: a.planned) := by
  rw [planned, queue_register]
  have hperm : (StableQueue.insert (Entry.key a.span) a.queue _).Perm (_ :: a.queue) :=
    StableQueue.perm_insert a.queue
      ⟨a.nextTimer delay callback, a.rankOf (a.nextTimer delay callback)⟩
  exact hperm.map (·.timer)

theorem Steady.perform (h : Steady n a) (o : World.Op κ) :
    Steady n (Agenda.perform .quiet a o).2 ∧
      (Agenda.perform .quiet a o).2.now = o.clock a.now := by
  obtain ⟨hspan, ⟨w, hw⟩, hcounted⟩ := h
  have hwheel : ∃ w, Between w (Agenda.perform .quiet a o).2 := ⟨_, (simulates .quiet w a o hw).2⟩
  cases o with
  | schedule delay callback =>
    unfold Agenda.perform at hwheel ⊢
    by_cases hneg : delay < 0
    · simp only [if_pos hneg] at hwheel ⊢
      exact ⟨⟨hspan, hwheel, hcounted⟩, rfl⟩
    · simp only [if_neg hneg] at hwheel ⊢
      refine ⟨⟨hspan, hwheel, ?_⟩, rfl⟩
      show a.size + 1 = _
      rw [(planned_register a delay.toNat callback).length_eq, hcounted, List.length_cons]
      push_cast
      rfl
  | setCancelled id cancelled => exact ⟨⟨hspan, hwheel, hcounted⟩, rfl⟩
  | advance target =>
    obtain ⟨hsteady, hnow, -⟩ := Steady.tickAll ⟨hspan, ⟨w, hw⟩, hcounted⟩ (target - a.now).toNat 0
    refine ⟨hsteady, hnow.trans ?_⟩
    show a.now + (target - a.now).toNat = max a.now target.toNat
    omega

theorem perform_schedule (cb : Callbacks κ) (a : Agenda κ) (delay : ℕ) (callback : κ) :
    (Agenda.perform cb a (.schedule delay callback)).2 = a.register delay callback := by
  have hneg : ¬ (delay : ℤ) < 0 := Int.not_lt.mpr (Int.natCast_nonneg delay)
  simp only [Agenda.perform, if_neg hneg, Int.toNat_natCast]

theorem Steady.register (h : Steady n a) (delay : ℕ) (callback : κ) :
    Steady n (a.register delay callback) := by
  rw [← perform_schedule .quiet]
  exact (h.perform (.schedule delay callback)).1

theorem Steady.runAll (h : Steady n a) (ops : List (World.Op κ)) :
    Steady n (Answers.runAll (Agenda.perform .quiet) a ops).2 := by
  induction ops generalizing a with
  | nil => exact h
  | cons o ops ih => exact ih (h.perform o).1

theorem steady_new (slotsPerWheel levels : ℕ) (h : 0 < slotsPerWheel) :
    Steady (slotsPerWheel * max levels 1) (Agenda.new slotsPerWheel levels : Agenda κ) :=
  ⟨rfl, ⟨_, between_new slotsPerWheel levels h⟩, rfl⟩

/-! ## The order within a tick -/

/-- Agendas of which one has the timers and the calls in another order. -/
structure Shuffled (a b : Agenda κ) : Prop where
  visible : a.toVisible.Reordered b.toVisible
  planned : a.planned.Perm b.planned
  fires : ∀ t ∈ a.planned, t.fires a.span = t.fires b.span

theorem Shuffled.dueNext (h : Shuffled a b) : a.dueNext.Perm b.dueNext := by
  have hsame : a.dueNext = a.planned.filter fun t => t.fires b.span ≤ b.now + 1 := by
    refine List.filter_congr fun t ht => ?_
    rw [h.fires t ht, h.visible.now]
  rw [hsame]
  exact h.planned.filter _

theorem Shuffled.later (h : Shuffled a b) : a.later.Perm b.later := by
  have hsame : a.later = a.planned.filter fun t => b.now + 1 < t.fires b.span := by
    refine List.filter_congr fun t ht => ?_
    rw [h.fires t ht, h.visible.now]
  rw [hsame]
  exact h.planned.filter _

theorem Shuffled.live (h : Shuffled a b) : (a.live a.dueNext).Perm (b.live b.dueNext) := by
  unfold Agenda.live
  rw [h.visible.cancelled]
  exact h.dueNext.filter _

/-- **A tick** of shuffled agendas. -/
theorem Shuffled.tick (h : Shuffled a b) {fired fired' : ℕ} {a' b' : Agenda κ}
    (ha : QuietTick a fired a') (hb : QuietTick b fired' b') : fired = fired' ∧ Shuffled a' b' := by
  obtain ⟨hnow, hsize, hcancelled, hcreated, hcalls⟩ := h.visible
  refine ⟨?_, ⟨?_, ?_, ?_, ?_, ?_⟩, ?_, ?_⟩
  · rw [ha.fired, hb.fired]
    exact h.live.length_eq
  · rw [ha.now, hb.now, hnow]
  · rw [ha.size, hb.size, hsize, h.dueNext.length_eq]
  · rw [ha.cancelled, hb.cancelled, hcancelled]
  · rw [ha.created, hb.created, hcreated]
  · rw [ha.calls, hb.calls, hnow]
    exact hcalls.append (h.live.map _)
  · rw [ha.planned, hb.planned]
    exact h.later
  · intro t ht
    rw [ha.planned] at ht
    rw [ha.span, hb.span]
    exact h.fires t (List.mem_filter.mp ht).1

theorem Shuffled.nextTimer (h : Shuffled a b) (delay : ℕ) (callback : κ) :
    a.nextTimer delay callback = b.nextTimer delay callback := by
  unfold Agenda.nextTimer
  rw [h.visible.now, h.visible.created]

theorem Shuffled.register (h : Shuffled a b) (delay : ℕ) (callback : κ)
    (hfires : (a.nextTimer delay callback).fires a.span = (a.nextTimer delay callback).fires b.span) :
    Shuffled (a.register delay callback) (b.register delay callback) := by
  have ht := h.nextTimer delay callback
  obtain ⟨hnow, hsize, hcancelled, hcreated, hcalls⟩ := h.visible
  refine ⟨⟨hnow, ?_, ?_, ?_, hcalls⟩, ?_, fun t hmem => ?_⟩
  · rw [visible_register, visible_register]
    exact congrArg (· + 1) hsize
  · rw [visible_register, visible_register]
    show Function.update a.cancelled a.created false = Function.update b.cancelled b.created false
    rw [hcancelled, hcreated]
  · rw [visible_register, visible_register]
    exact congrArg (· + 1) hcreated
  · refine (planned_register a delay callback).trans ?_
    refine List.Perm.trans ?_ (planned_register b delay callback).symm
    rw [ht]
    exact h.planned.cons _
  · rcases List.mem_cons.mp ((planned_register a delay callback).mem_iff.mp hmem) with rfl | hold
    · exact hfires
    · exact h.fires t hold

theorem Shuffled.tickAll (h : Shuffled a b) (ha : Steady m a) (hb : Steady n b) (count fired : ℕ) :
    (Agenda.tickAll .quiet count fired a).1 = (Agenda.tickAll .quiet count fired b).1 ∧
      Shuffled (Agenda.tickAll .quiet count fired a).2 (Agenda.tickAll .quiet count fired b).2 := by
  induction count generalizing a b fired with
  | zero => exact ⟨rfl, h⟩
  | succ count ih =>
    obtain ⟨hfired, hnext⟩ := h.tick ha.quietTick hb.quietTick
    rw [tickAll_succ, tickAll_succ, ← hfired]
    exact ih hnext ha.tick hb.tick _

/-- **An operation** that schedules no timer that fires in different ticks. -/
theorem simulatesOn_alike (m n : ℕ) : Answers.SimulatesOn
    (fun (a : Agenda κ) o => World.Op.FiresAlike m n a.now o)
    (fun a b => Steady m a ∧ Steady n b ∧ Shuffled a b) (Agenda.perform .quiet)
    (Agenda.perform .quiet) := by
  rintro a b o ⟨ha, hb, h⟩ ho
  suffices hstep : (Agenda.perform .quiet a o).1 = (Agenda.perform .quiet b o).1 ∧
      Shuffled (Agenda.perform .quiet a o).2 (Agenda.perform .quiet b o).2 from
    ⟨hstep.1, (ha.perform o).1, (hb.perform o).1, hstep.2⟩
  cases o with
  | schedule delay callback =>
    unfold Agenda.perform
    by_cases hneg : delay < 0
    · simp only [if_pos hneg]
      exact ⟨trivial, h⟩
    · rcases ho with hlt | hfires
      · exact absurd hlt hneg
      · have hnext := h.register delay.toNat callback (by rw [ha.span, hb.span]; exact hfires)
        simp only [if_neg hneg, h.nextTimer]
        exact ⟨trivial, hnext⟩
  | setCancelled id cancelled =>
    obtain ⟨hnow, hsize, hcancelled, hcreated, hcalls⟩ := h.visible
    refine ⟨rfl, ⟨hnow, hsize, ?_, hcreated, hcalls⟩, h.planned, h.fires⟩
    exact congrArg (Function.update · id cancelled) hcancelled
  | advance target =>
    obtain ⟨hfired, hend⟩ := h.tickAll ha hb (target - a.now).toNat 0
    unfold Agenda.perform
    rw [← h.visible.now]
    exact ⟨congrArg Answer.advanced hfired, hend⟩

/-! ## What the condition is needed for -/

theorem allFireAlike_append {now : ℕ} {ops ops' : List (World.Op κ)} :
    World.Op.AllFireAlike m n now (ops ++ ops') ↔ World.Op.AllFireAlike m n now ops ∧
      World.Op.AllFireAlike m n (ops.foldl (fun now o => o.clock now) now) ops' := by
  induction ops generalizing now with
  | nil => exact (iff_of_eq (true_and _)).symm
  | cons o ops ih =>
    rw [List.cons_append, List.foldl_cons]
    show _ ∧ World.Op.AllFireAlike m n (o.clock now) (ops ++ ops') ↔ (_ ∧ _) ∧ _
    rw [ih, and_assoc]

theorem Steady.now_runAll (h : Steady n a) (ops : List (World.Op κ)) :
    (Answers.runAll (Agenda.perform .quiet) a ops).2.now =
      ops.foldl (fun now o => o.clock now) a.now := by
  induction ops generalizing a with
  | nil => rfl
  | cons o ops ih =>
    obtain ⟨hsteady, hnow⟩ := h.perform o
    rw [List.foldl_cons, ← hnow]
    exact ih hsteady

theorem Steady.allowed (h : Steady n a) {m m' : ℕ} {ops : List (World.Op κ)}
    (hops : World.Op.AllFireAlike m m' a.now ops) :
    Answers.Allowed (fun (a : Agenda κ) o => World.Op.FiresAlike m m' a.now o)
      (Agenda.perform .quiet) a ops := by
  induction ops generalizing a with
  | nil => trivial
  | cons o ops ih =>
    obtain ⟨ho, hrest⟩ := hops
    obtain ⟨hsteady, hnow⟩ := h.perform o
    rw [← hnow] at hrest
    exact ⟨ho, ih hsteady hrest⟩

/-- The size after an `advance` to `target` is the number of timers that fire later. -/
theorem Steady.size_advance (h : Steady n a) {target : ℕ} (htarget : a.now ≤ target)
    (hperm : a.planned.Perm (t :: b.planned)) :
    (Agenda.perform .quiet a (.advance target)).2.size =
      ((t :: b.planned).filter fun u => target < u.fires n).length := by
  obtain ⟨hsteady, -, hplanned⟩ := h.tickAll ((target : ℤ) - a.now).toNat 0
  have hnow : a.now + ((target : ℤ) - a.now).toNat = target := by omega
  rw [hnow] at hplanned
  refine hsteady.counted.trans ?_
  rw [hplanned, (hperm.filter _).length_eq]

/-- **A timer that fires in different ticks shows in the sizes.** -/
theorem Shuffled.fires_of_sizes (h : Shuffled a b) (ha : Steady m a) (hb : Steady n b) (delay : ℕ)
    (callback : κ)
    (hsizes : ∀ target : ℤ,
      (Agenda.perform .quiet (a.register delay callback) (.advance target)).2.size =
        (Agenda.perform .quiet (b.register delay callback) (.advance target)).2.size) :
    (a.nextTimer delay callback).fires m = (a.nextTimer delay callback).fires n := by
  have ha' := ha.register delay callback
  have hb' := hb.register delay callback
  have ht := h.nextTimer delay callback
  set t := a.nextTimer delay callback with htdef
  have hmem₁ : t ∈ (a.register delay callback).planned :=
    (planned_register a delay callback).mem_iff.mpr List.mem_cons_self
  have hmem₂ : t ∈ (b.register delay callback).planned := by
    rw [ht]
    exact (planned_register b delay callback).mem_iff.mpr List.mem_cons_self
  have hafter₁ : a.now < t.fires m := ha'.after hmem₁
  have hafter₂ : b.now < t.fires n := hb'.after hmem₂
  -- the other timers count the same, so the new one does
  have hnew : ∀ target : ℕ, a.now ≤ target → (target < t.fires m ↔ target < t.fires n) := by
    intro target htarget
    have hsize := hsizes target
    rw [ha'.size_advance (b := a) htarget (planned_register a delay callback),
      hb'.size_advance (b := b) (h.visible.now ▸ htarget)
        (planned_register b delay callback), ← htdef, ← ht] at hsize
    have hothers : (a.planned.filter fun u => target < u.fires m).length =
        (b.planned.filter fun u => target < u.fires n).length := by
      have hsame : (a.planned.filter fun u => decide (target < u.fires m)) =
          a.planned.filter fun u => target < u.fires n := by
        refine List.filter_congr fun u hu => ?_
        rw [← ha.span, ← hb.span, h.fires u hu]
      rw [hsame]
      exact (h.planned.filter _).length_eq
    have hcount : ∀ (slots : ℕ) (l : List (Timer κ)),
        ((t :: l).filter fun u => target < u.fires slots).length =
          (l.filter fun u => target < u.fires slots).length +
            if target < t.fires slots then 1 else 0 := by
      intro slots l
      by_cases hlt : target < t.fires slots <;> simp [hlt]
    rw [hcount, hcount, hothers] at hsize
    constructor
    · intro h₁
      by_contra h₂
      rw [if_pos h₁, if_neg h₂] at hsize
      omega
    · intro h₂
      by_contra h₁
      rw [if_neg h₁, if_pos h₂] at hsize
      omega
  have hle := (hnew (t.fires n) (h.visible.now ▸ Nat.le_of_lt hafter₂)).not.mpr (Nat.lt_irrefl _)
  have hge := (hnew (t.fires m) (Nat.le_of_lt hafter₁)).not.mp (Nat.lt_irrefl _)
  omega

/-- What two runs on the same operations have in common. -/
theorem reordered_of_alike (slotsPerWheel levels slotsPerWheel' levels' : ℕ) (h : 0 < slotsPerWheel)
    (h' : 0 < slotsPerWheel') {ops : List (World.Op κ)}
    (hops : World.Op.AllFireAlike (slotsPerWheel * max levels 1) (slotsPerWheel' * max levels' 1) 0
      ops) :
    (Answers.runAll (Agenda.perform .quiet) (.new slotsPerWheel levels) ops).1 =
        (Answers.runAll (Agenda.perform .quiet) (.new slotsPerWheel' levels') ops).1 ∧
      Shuffled (Answers.runAll (Agenda.perform .quiet) (.new slotsPerWheel levels) ops).2
        (Answers.runAll (Agenda.perform .quiet) (.new slotsPerWheel' levels') ops).2 := by
  have hnew := steady_new (κ := κ) slotsPerWheel levels h
  have hnew' := steady_new (κ := κ) slotsPerWheel' levels' h'
  have hstart : Shuffled (Agenda.new slotsPerWheel levels : Agenda κ)
      (Agenda.new slotsPerWheel' levels') :=
    ⟨⟨rfl, rfl, rfl, rfl, .refl _⟩, .refl _, fun t ht => absurd ht List.not_mem_nil⟩
  obtain ⟨hanswers, -, -, hend⟩ := (simulatesOn_alike _ _).runAll ⟨hnew, hnew', hstart⟩
    (hnew.allowed hops)
  exact ⟨hanswers, hend⟩

theorem size_run (slotsPerWheel levels : ℕ) (h : 0 < slotsPerWheel) (ops : List (World.Op κ)) :
    (World.run (World.env .quiet) (.new slotsPerWheel levels) ops).wheel.size =
      (Answers.runAll (Agenda.perform .quiet) (.new slotsPerWheel levels) ops).2.size :=
  (run_agenda slotsPerWheel levels h .quiet ops).2.plans.size.symm

/-- **The span only reorders the callbacks of a tick**, as long as no timer fires in different ticks:
two wheels of any spans give the same answers, and clock, size, flags and the calls of each tick are
the same. The first timer of which this is not true shows in the sizes. -/
theorem span_only_reorders (slotsPerWheel levels slotsPerWheel' levels' : ℕ) (h : 0 < slotsPerWheel)
    (h' : 0 < slotsPerWheel') (ops : List (World.Op κ))
    (hops : World.Op.AllFireAlike (slotsPerWheel * max levels 1) (slotsPerWheel' * max levels' 1) 0
      ops) :
    let run (slots levels : ℕ) := World.run (World.env (κ := κ) .quiet) (.new slots levels)
    (Answers.runAll (World.perform .quiet) (.new slotsPerWheel levels) ops).1 =
        (Answers.runAll (World.perform .quiet) (.new slotsPerWheel' levels') ops).1 ∧
      (run slotsPerWheel levels ops).visible.Reordered (run slotsPerWheel' levels' ops).visible ∧
      ∀ (delay : ℕ) (callback : κ),
        (∀ target, (run slotsPerWheel levels
              (ops ++ [.schedule delay callback, .advance target])).wheel.size =
            (run slotsPerWheel' levels'
              (ops ++ [.schedule delay callback, .advance target])).wheel.size) ↔
          World.Op.AllFireAlike (slotsPerWheel * max levels 1) (slotsPerWheel' * max levels' 1) 0
            (ops ++ [.schedule delay callback]) := by
  intro run
  obtain ⟨hanswers, hend⟩ := reordered_of_alike slotsPerWheel levels slotsPerWheel' levels' h h' hops
  obtain ⟨hfirst, hbetween⟩ := run_agenda slotsPerWheel levels h .quiet ops
  obtain ⟨hsecond, hbetween'⟩ := run_agenda slotsPerWheel' levels' h' .quiet ops
  refine ⟨?_, ?_, fun delay callback => ⟨fun hsizes => ?_, fun halike target => ?_⟩⟩
  · rw [hfirst, hsecond]
    exact hanswers
  · rw [← hbetween.plans.visible, ← hbetween'.plans.visible]
    exact hend.visible
  · have hnew := steady_new (κ := κ) slotsPerWheel levels h
    have hnew' := steady_new (κ := κ) slotsPerWheel' levels' h'
    have hnow := hnew.now_runAll ops
    have hfires := hend.fires_of_sizes (hnew.runAll ops) (hnew'.runAll ops) delay callback
      fun target => by
        have hsize := hsizes target
        rw [size_run slotsPerWheel levels h, size_run slotsPerWheel' levels' h',
          Answers.runAll_append, Answers.runAll_append] at hsize
        rw [← perform_schedule .quiet, ← perform_schedule .quiet]
        exact hsize
    refine allFireAlike_append.mpr ⟨hops, Or.inr ?_, trivial⟩
    unfold Agenda.nextTimer at hfires
    rw [hnow] at hfires
    exact hfires
  · have hall : World.Op.AllFireAlike (slotsPerWheel * max levels 1) (slotsPerWheel' * max levels' 1) 0
        (ops ++ [.schedule delay callback, .advance target]) := by
      obtain ⟨-, hlast, -⟩ := allFireAlike_append.mp halike
      exact allFireAlike_append.mpr ⟨hops, hlast, trivial, trivial⟩
    obtain ⟨-, hshuffled⟩ := reordered_of_alike slotsPerWheel levels slotsPerWheel' levels' h h' hall
    rw [size_run slotsPerWheel levels h, size_run slotsPerWheel' levels' h']
    exact hshuffled.visible.size

/-- A timer that is far for four slots and near for eight: on the first wheel it is re-homed behind
a near one with the same deadline. -/
theorem span_only_reorders_four_eight :
    let ops : List (World.Op ℕ) := [.schedule 5 1, .advance 2, .schedule 3 2, .advance 6]
    (World.run (World.env .quiet) (.new 4 1) ops).visible.Reordered
        (World.run (World.env .quiet) (.new 8 1) ops).visible ∧
      (World.run (World.env .quiet) (.new 4 1) ops).calls.map (·.timer.callback) = [2, 1] ∧
      (World.run (World.env .quiet) (.new 8 1) ops).calls.map (·.timer.callback) = [1, 2] := by
  intro ops
  obtain ⟨-, hreordered, -⟩ := span_only_reorders 4 1 8 1 (by decide) (by decide) ops
    ⟨Or.inr (by decide), trivial, Or.inr (by decide), trivial, trivial⟩
  exact ⟨hreordered, by decide, by decide⟩

end Agenda

end DurableExecution
