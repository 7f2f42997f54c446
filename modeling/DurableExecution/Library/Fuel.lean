import Mathlib.Order.Monotone.Basic

/-!
# Functions with a fuel argument

A loop with no bound of its own is written as a function of a fuel argument: `none` means that the
fuel ran out. Such a function is *stable* when more fuel never changes an answer. `Yields f x` says
that the loop ends with `x`: this is the only notion of the development that mentions fuel, and the
rules below are how it is used.
-/

namespace Fuel

variable {β γ : Type*}

/-- More fuel never changes an answer. -/
def Stable (f : ℕ → Option β) : Prop := ∀ n x, f n = some x → f (n + 1) = some x

/-- With enough fuel the loop ends with `x`. -/
def Yields (f : ℕ → Option β) (x : β) : Prop := ∃ n, f n = some x

theorem Stable.le {f : ℕ → Option β} (hf : Stable f) {n m : ℕ} {x : β} (h : f n = some x)
    (hnm : n ≤ m) : f m = some x := by
  induction hnm with
  | refl => exact h
  | step _ ih => exact hf _ _ ih

/-- A stable loop has at most one answer. -/
theorem Yields.unique {f : ℕ → Option β} (hf : Stable f) {x y : β} (hx : Yields f x)
    (hy : Yields f y) : x = y := by
  obtain ⟨n, hn⟩ := hx
  obtain ⟨m, hm⟩ := hy
  have h1 := hf.le hn (le_max_left n m)
  have h2 := hf.le hm (le_max_right n m)
  exact Option.some.inj (h1.symm.trans h2)

/-- Two stable loops that end also end with one amount of fuel. -/
theorem Yields.both {f : ℕ → Option β} {g : ℕ → Option γ} (hf : Stable f) (hg : Stable g) {x : β}
    {y : γ} (hx : Yields f x) (hy : Yields g y) : ∃ n, f n = some x ∧ g n = some y := by
  obtain ⟨n, hn⟩ := hx
  obtain ⟨m, hm⟩ := hy
  exact ⟨max n m, hf.le hn (le_max_left n m), hg.le hm (le_max_right n m)⟩

end Fuel
