import Mathlib.Order.WellFounded
import DurableExecution.Library.System

/-!
# Runs without end

An infinite run of a system, in which some actions belong to one of several parties. The rule says
when a party reaches its goal however the others interleave: its own actions lower a rank, and the
actions of the others leave the rank alone.
-/

namespace System

variable {State Act : Type*}

/-- A run that never ends. -/
structure Endless (next : State → Act → Option State) where
  states : ℕ → State
  acts : ℕ → Act
  step : ∀ n, next (states n) (acts n) = some (states (n + 1))

variable {next : State → Act → Option State}

/-- The run with the given actions, when an invariant says that each of them is possible. -/
def Endless.of (acts : ℕ → Act) (start : State) (I : ℕ → State → Prop) (init : I 0 start)
    (step : ∀ n s, I n s → ∃ s', next s (acts n) = some s' ∧ I (n + 1) s') : Endless next where
  states := Nat.rec start fun n s => (next s (acts n)).getD s
  acts := acts
  step := by
    have hI : ∀ n, I n (Nat.rec start (fun n s => (next s (acts n)).getD s) n) := by
      intro n
      induction n with
      | zero => exact init
      | succ n ih =>
        obtain ⟨s', hnext, hs'⟩ := step n _ ih
        simpa only [hnext, Option.getD_some] using hs'
    intro n
    obtain ⟨s', hnext, -⟩ := step n _ (hI n)
    simp only [hnext, Option.getD_some]

/-- What every action keeps holds in every later state. -/
theorem Endless.invariant (r : Endless next) {P : State → Prop}
    (step : ∀ s a s', P s → next s a = some s' → P s') {n m : ℕ} (hnm : n ≤ m) (h : P (r.states n)) :
    P (r.states m) := by
  induction hnm with
  | refl => exact h
  | step _ ih => exact step _ _ _ ih (r.step _)

/-- **A party that acts again and again reaches its goal**, if each of its actions lowers its rank in
a well-founded order and the actions of the others keep it. -/
theorem Endless.eventually {μ : Type*} {lt : μ → μ → Prop} (hwf : WellFounded lt)
    {R : State → μ → Prop} {M O : Act → Prop} {G : State → Prop}
    (mine : ∀ s a s' x, R s x → M a → next s a = some s' →
      G s' ∨ ∃ y, lt y x ∧ R s' y)
    (others : ∀ s a s' x, R s x → O a → next s a = some s' → R s' x)
    (r : Endless next) {n : ℕ} {x : μ} (hrank : R (r.states n) x)
    (hacts : ∀ m, n ≤ m → M (r.acts m) ∨ O (r.acts m))
    (hfair : ∀ m, ∃ k, m ≤ k ∧ M (r.acts k)) : ∃ m, n ≤ m ∧ G (r.states m) := by
  induction x using hwf.induction generalizing n with
  | _ x ih =>
    obtain ⟨k, hk, hmine⟩ := hfair n
    -- up to the next action of the party, either the rank stays or the goal is reached
    have hwait : ∀ d, n + d ≤ k → R (r.states (n + d)) x ∨
        ∃ m, n ≤ m ∧ m ≤ n + d ∧ M (r.acts m) ∧ R (r.states m) x := by
      intro d
      induction d with
      | zero => exact fun _ => Or.inl hrank
      | succ d ihd =>
        intro hle
        rcases ihd (by omega) with hd | ⟨m, hm, hmd, hact, hmr⟩
        · rcases hacts (n + d) (by omega) with hown | hother
          · exact Or.inr ⟨n + d, by omega, by omega, hown, hd⟩
          · exact Or.inl (others _ _ _ x hd hother (r.step (n + d)))
        · exact Or.inr ⟨m, hm, by omega, hact, hmr⟩
    obtain ⟨m, hm, hact, hmr⟩ : ∃ m, n ≤ m ∧ M (r.acts m) ∧ R (r.states m) x := by
      rcases hwait (k - n) (by omega) with hd | ⟨m, hm, -, hact, hmr⟩
      · rw [Nat.add_sub_cancel' hk] at hd
        exact ⟨k, hk, hmine, hd⟩
      · exact ⟨m, hm, hact, hmr⟩
    rcases mine _ _ _ x hmr hact (r.step m) with hgoal | ⟨y, hlt, hy⟩
    · exact ⟨m + 1, by omega, hgoal⟩
    · obtain ⟨m', hm', hgoal⟩ := ih y hlt hy fun j hj => hacts j (by omega)
      exact ⟨m', by omega, hgoal⟩

end System
