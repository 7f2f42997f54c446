import Mathlib.Data.Nat.Notation

/-!
# Amortised work

The work of the steps of a run is paid for in advance: each state has some credit, and some amount has
been paid in when it is reached. Work is covered when it is at most what was paid in meanwhile, and
what the credit fell by.
-/

namespace Amortized

variable {State Cmd : Type*}

/-- The work of all steps of a run. -/
def totalWork (step : State → Cmd → State) (work : State → Cmd → ℕ) : State → List Cmd → ℕ
  | _, [] => 0
  | s, c :: cs => work s c + totalWork step work (step s c) cs

/-- The work `n` between the states `s` and `s'` is covered. -/
def Covered (credit paid : State → ℕ) (s : State) (n : ℕ) (s' : State) : Prop :=
  n + credit s' + paid s ≤ credit s + paid s'

variable {credit paid : State → ℕ} {step : State → Cmd → State} {work : State → Cmd → ℕ}

theorem Covered.refl (s : State) : Covered credit paid s 0 s := by
  unfold Covered
  omega

theorem Covered.trans {s₁ s₂ s₃ : State} {m n : ℕ} (h : Covered credit paid s₁ m s₂)
    (h' : Covered credit paid s₂ n s₃) : Covered credit paid s₁ (m + n) s₃ := by
  unfold Covered at h h' ⊢
  omega

/-- **The work of a run is covered** when the work of each of its steps is. -/
theorem totalWork_covered {Ok : State → Prop}
    (hstep : ∀ s c, Ok s → Ok (step s c) ∧ Covered credit paid s (work s c) (step s c)) {s : State}
    (hs : Ok s) (cs : List Cmd) :
    Covered credit paid s (totalWork step work s cs) (cs.foldl step s) := by
  induction cs generalizing s with
  | nil => exact .refl s
  | cons c cs ih =>
    obtain ⟨hnext, hone⟩ := hstep s c hs
    exact hone.trans (ih hnext)

end Amortized
