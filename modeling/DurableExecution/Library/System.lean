import Mathlib.Data.Nat.Notation

/-!
# Systems that take one action after the other

A system is a function `next` that says what an action does to a state; `none` means that the action
is not possible there. `runs` performs a list of actions. A fact that one action keeps is a fact
that every run keeps: the rules below are used in place of an induction over the run.
-/

namespace System

variable {State Act : Type*}

/-- Performs the actions of a list in order. -/
def runs (next : State → Act → Option State) : State → List Act → Option State
  | s, [] => some s
  | s, a :: as => (next s a).bind fun s' => runs next s' as

variable {next : State → Act → Option State}

theorem runs_nil (s : State) : runs next s [] = some s := rfl

theorem runs_cons_iff {s t : State} {a : Act} {as : List Act} :
    runs next s (a :: as) = some t ↔ ∃ s', next s a = some s' ∧ runs next s' as = some t :=
  Option.bind_eq_some_iff

theorem runs_append_iff {s t : State} {as bs : List Act} :
    runs next s (as ++ bs) = some t ↔ ∃ s', runs next s as = some s' ∧ runs next s' bs = some t := by
  induction as generalizing s with
  | nil => simp [runs_nil]
  | cons a as ih =>
    simp only [List.cons_append, runs_cons_iff, ih]
    constructor
    · rintro ⟨s₁, h₁, s₂, h₂, h₃⟩
      exact ⟨s₂, ⟨s₁, h₁, h₂⟩, h₃⟩
    · rintro ⟨s₂, ⟨s₁, h₁, h₂⟩, h₃⟩
      exact ⟨s₁, h₁, s₂, h₂, h₃⟩

/-- What every action keeps, every run keeps. -/
theorem runs_invariant {P : State → Prop} (step : ∀ s a s', P s → next s a = some s' → P s')
    {s t : State} {as : List Act} (h : runs next s as = some t) (hs : P s) : P t := by
  induction as generalizing s with
  | nil =>
    obtain rfl := Option.some.inj h
    exact hs
  | cons a as ih =>
    obtain ⟨s', h₁, h₂⟩ := runs_cons_iff.mp h
    exact ih h₂ (step s a s' hs h₁)

/-- A reflexive and transitive relation that every action respects (from states with `P`, which
actions keep) holds between the ends of every run. -/
theorem runs_relation {P : State → Prop} {R : State → State → Prop}
    (step : ∀ s a s', P s → next s a = some s' → P s') (refl : ∀ s, R s s)
    (trans : ∀ s t u, R s t → R t u → R s u)
    (rel : ∀ s a s', P s → next s a = some s' → R s s')
    {s t : State} {as : List Act} (h : runs next s as = some t) (hs : P s) : R s t := by
  induction as generalizing s with
  | nil =>
    obtain rfl := Option.some.inj h
    exact refl s
  | cons a as ih =>
    obtain ⟨s', h₁, h₂⟩ := runs_cons_iff.mp h
    exact trans _ _ _ (rel s a s' hs h₁) (ih h₂ (step s a s' hs h₁))

/-- A run leads from `s` to a state with `P`. -/
def Reaches (next : State → Act → Option State) (s : State) (P : State → Prop) : Prop :=
  ∃ as s', runs next s as = some s' ∧ P s'

theorem Reaches.trans {s : State} {P Q : State → Prop} (h : Reaches next s P)
    (hPQ : ∀ s', P s' → Reaches next s' Q) : Reaches next s Q := by
  obtain ⟨as, s', has, hP⟩ := h
  obtain ⟨bs, t, hbs, hQ⟩ := hPQ s' hP
  exact ⟨as ++ bs, t, runs_append_iff.mpr ⟨s', has, hbs⟩, hQ⟩

/-- `P` holds in every state of the run. -/
def Always (next : State → Act → Option State) (P : State → Prop) (s : State) (as : List Act) : Prop :=
  ∀ as₁ as₂ u, as = as₁ ++ as₂ → runs next s as₁ = some u → P u

/-- `C` holds of every action of the run, in the state in which it is taken. -/
def EachStep (next : State → Act → Option State) (C : State → Act → Prop) (s : State)
    (as : List Act) : Prop :=
  ∀ as₁ a as₂ u, as = as₁ ++ a :: as₂ → runs next s as₁ = some u → C u a

theorem always_cons_iff {P : State → Prop} {s s' : State} {a : Act} {as : List Act}
    (h : next s a = some s') : Always next P s (a :: as) ↔ P s ∧ Always next P s' as := by
  constructor
  · intro hall
    refine ⟨hall [] _ s rfl rfl, fun as₁ as₂ u heq hu => hall (a :: as₁) as₂ u ?_ ?_⟩
    · rw [heq, List.cons_append]
    · exact runs_cons_iff.mpr ⟨s', h, hu⟩
  · rintro ⟨hs, hall⟩ as₁ as₂ u heq hu
    cases as₁ with
    | nil =>
      obtain rfl := Option.some.inj hu
      exact hs
    | cons b as₁ =>
      obtain ⟨rfl, hrest⟩ := List.cons.inj heq
      obtain ⟨s'', h', hu⟩ := runs_cons_iff.mp hu
      obtain rfl := Option.some.inj (h.symm.trans h')
      exact hall as₁ as₂ u hrest hu

theorem eachStep_nil (C : State → Act → Prop) (s : State) : EachStep next C s [] := by
  intro as₁ a as₂ u heq
  simp at heq

theorem eachStep_cons_iff {C : State → Act → Prop} {s s' : State} {a : Act} {as : List Act}
    (h : next s a = some s') : EachStep next C s (a :: as) ↔ C s a ∧ EachStep next C s' as := by
  constructor
  · intro hall
    refine ⟨hall [] a as s rfl rfl, fun as₁ b as₂ u heq hu => hall (a :: as₁) b as₂ u ?_ ?_⟩
    · rw [heq, List.cons_append]
    · exact runs_cons_iff.mpr ⟨s', h, hu⟩
  · rintro ⟨hs, hall⟩ as₁ b as₂ u heq hu
    cases as₁ with
    | nil =>
      obtain rfl := Option.some.inj hu
      obtain ⟨rfl, -⟩ := List.cons.inj heq
      exact hs
    | cons c as₁ =>
      obtain ⟨rfl, hrest⟩ := List.cons.inj heq
      obtain ⟨s'', h', hu⟩ := runs_cons_iff.mp hu
      obtain rfl := Option.some.inj (h.symm.trans h')
      exact hall as₁ b as₂ u hrest hu

/-- What every action keeps under the condition `C` holds in every state of a run whose actions all
meet `C`. -/
theorem always_of_eachStep {P : State → Prop} {C : State → Act → Prop}
    (step : ∀ s a s', P s → C s a → next s a = some s' → P s') {s t : State} {as : List Act}
    (h : runs next s as = some t) (hs : P s) (hC : EachStep next C s as) : Always next P s as := by
  induction as generalizing s with
  | nil =>
    intro as₁ as₂ u heq hu
    obtain ⟨rfl, -⟩ := List.append_eq_nil_iff.mp heq.symm
    obtain rfl := Option.some.inj hu
    exact hs
  | cons a as ih =>
    obtain ⟨s', h₁, h₂⟩ := runs_cons_iff.mp h
    obtain ⟨hc, hrest⟩ := (eachStep_cons_iff h₁).mp hC
    exact (always_cons_iff h₁).mpr ⟨hs, ih h₂ (step s a s' hs hc h₁) hrest⟩

/-- When an action keeps `P` exactly under the condition `C`, `P` holds in every state of a run
exactly when `C` holds of each of its actions. -/
theorem always_iff_eachStep {P : State → Prop} {C : State → Act → Prop}
    (step : ∀ s a s', P s → next s a = some s' → (P s' ↔ C s a)) {s t : State} {as : List Act}
    (h : runs next s as = some t) (hs : P s) : Always next P s as ↔ EachStep next C s as := by
  constructor
  · intro hall
    induction as generalizing s with
    | nil => exact eachStep_nil C s
    | cons a as ih =>
      obtain ⟨s', h₁, h₂⟩ := runs_cons_iff.mp h
      obtain ⟨-, hrest⟩ := (always_cons_iff h₁).mp hall
      have hs' : P s' := hrest [] as s' rfl rfl
      exact (eachStep_cons_iff h₁).mpr ⟨(step s a s' hs h₁).mp hs', ih h₂ hs' hrest⟩
  · exact always_of_eachStep (fun s a s' hs hc h₁ => (step s a s' hs h₁).mpr hc) h hs

/-- `C` holds of each action of a part of the run. -/
theorem EachStep.part {C : State → Act → Prop} {s u : State} {as₁ as₂ as₃ : List Act}
    (hC : EachStep next C s (as₁ ++ (as₂ ++ as₃))) (hu : runs next s as₁ = some u) :
    EachStep next C u as₂ := by
  intro bs₁ a bs₂ v heq hv
  refine hC (as₁ ++ bs₁) a (bs₂ ++ as₃) v ?_ (runs_append_iff.mpr ⟨u, hu, hv⟩)
  rw [heq]
  simp only [List.append_assoc, List.cons_append]

/-- `R` holds between any two states of the run, in the order in which they are reached. -/
def Ordered (next : State → Act → Option State) (R : State → State → Prop) (s : State)
    (as : List Act) : Prop :=
  ∀ as₁ as₂ as₃ u v, as = as₁ ++ (as₂ ++ as₃) → runs next s as₁ = some u →
    runs next u as₂ = some v → R u v

theorem Ordered.cons {R : State → State → Prop} {s s' : State} {a : Act} {as : List Act}
    (hR : Ordered next R s (a :: as)) (h : next s a = some s') : R s s' ∧ Ordered next R s' as := by
  constructor
  · exact hR [] [a] as s s' rfl rfl (runs_cons_iff.mpr ⟨s', h, rfl⟩)
  · intro as₁ as₂ as₃ u v heq hu hv
    refine hR (a :: as₁) as₂ as₃ u v ?_ (runs_cons_iff.mpr ⟨s', h, hu⟩) hv
    rw [heq, List.cons_append]

/-- Where the invariant `P` lasts as long as each step respects `R`, and a step respects `R` only
under the condition `C`, the actions of a run whose states are ordered by `R` all meet `C`. -/
theorem eachStep_of_ordered {P : State → Prop} {R : State → State → Prop} {C : State → Act → Prop}
    (keep : ∀ s a s', P s → R s s' → next s a = some s' → P s')
    (only : ∀ s a s', P s → R s s' → next s a = some s' → C s a) {s t : State} {as : List Act}
    (h : runs next s as = some t) (hs : P s) (hR : Ordered next R s as) : EachStep next C s as := by
  induction as generalizing s with
  | nil => exact eachStep_nil C s
  | cons a as ih =>
    obtain ⟨s', h₁, h₂⟩ := runs_cons_iff.mp h
    obtain ⟨hr, hrest⟩ := hR.cons h₁
    exact (eachStep_cons_iff h₁).mpr
      ⟨only s a s' hs hr h₁, ih h₂ (keep s a s' hs hr h₁) hrest⟩

/-- What every action keeps under `C`, a run whose actions all meet `C` keeps. -/
theorem runs_invariant_of_eachStep {P : State → Prop} {C : State → Act → Prop}
    (step : ∀ s a s', P s → C s a → next s a = some s' → P s') {s t : State} {as : List Act}
    (h : runs next s as = some t) (hs : P s) (hC : EachStep next C s as) : P t :=
  always_of_eachStep step h hs hC as [] t (List.append_nil as).symm h

end System
