import Mathlib.Logic.Function.Iterate

/-!
# Machines that take one step after the other

A machine is a function `step` on its states; what it does cannot be chosen. `Leads` says that it
gets from one state to another. The rules below put the parts of a run together, so that no proof
counts steps. For what every step keeps there is `Function.Iterate.rec`.
-/

namespace Steps

variable {State : Type*} {step : State → State} {s t u : State}

/-- Some number of steps lead from `s` to `t`. -/
def Leads (step : State → State) (s t : State) : Prop := ∃ n, step^[n] s = t

theorem Leads.refl (s : State) : Leads step s s := ⟨0, rfl⟩

theorem Leads.of_step (h : step s = t) : Leads step s t := ⟨1, h⟩

theorem Leads.trans (h : Leads step s t) (h' : Leads step t u) : Leads step s u := by
  obtain ⟨n, rfl⟩ := h
  obtain ⟨m, rfl⟩ := h'
  exact ⟨m + n, Function.iterate_add_apply step m n s⟩

/-- One step, and then others. -/
theorem Leads.head (h : step s = t) (h' : Leads step t u) : Leads step s u :=
  (Leads.of_step h).trans h'

/-- One more step. -/
theorem Leads.tail (h : Leads step s t) (h' : step t = u) : Leads step s u :=
  h.trans (Leads.of_step h')

end Steps
