import Mathlib.Logic.Basic

/-!
# Machines that answer

A machine takes a command, gives an answer and goes to another state. A simulation is a relation
between the states of two machines that makes their answers equal and is kept by every command: then
the answers to all lists of commands are equal, which is all that can be seen of a machine from
outside.
-/

namespace Answers

variable {State State' Cmd Ans : Type*}

/-- The answers to a list of commands, and the state at the end. -/
def runAll (step : State → Cmd → Ans × State) : State → List Cmd → List Ans × State
  | s, [] => ([], s)
  | s, c :: cs =>
    let (answer, s) := step s c
    let (answers, s) := runAll step s cs
    (answer :: answers, s)

/-- `R` is a simulation between two machines. -/
def Simulates (R : State → State' → Prop) (step : State → Cmd → Ans × State)
    (step' : State' → Cmd → Ans × State') : Prop :=
  ∀ s s' c, R s s' → (step s c).1 = (step' s' c).1 ∧ R (step s c).2 (step' s' c).2

variable {R : State → State' → Prop} {step : State → Cmd → Ans × State}
  {step' : State' → Cmd → Ans × State'}

/-- **Machines that are related by a simulation** give the same answers in every run. -/
theorem Simulates.runAll (h : Simulates R step step') {s : State} {s' : State'} (hs : R s s')
    (cs : List Cmd) :
    (runAll step s cs).1 = (runAll step' s' cs).1 ∧ R (runAll step s cs).2 (runAll step' s' cs).2 := by
  induction cs generalizing s s' with
  | nil => exact ⟨rfl, hs⟩
  | cons c cs ih =>
    obtain ⟨hanswer, hnext⟩ := h s s' c hs
    obtain ⟨hanswers, hend⟩ := ih hnext
    exact ⟨congrArg₂ List.cons hanswer hanswers, hend⟩

theorem runAll_append (step : State → Cmd → Ans × State) (s : State) (cs cs' : List Cmd) :
    (runAll step s (cs ++ cs')).2 = (runAll step (runAll step s cs).2 cs').2 := by
  induction cs generalizing s with
  | nil => rfl
  | cons c cs ih => exact ih (step s c).2

/-- `R` is a simulation as far as the commands go that `P` allows. -/
def SimulatesOn (P : State → Cmd → Prop) (R : State → State' → Prop)
    (step : State → Cmd → Ans × State) (step' : State' → Cmd → Ans × State') : Prop :=
  ∀ s s' c, R s s' → P s c → (step s c).1 = (step' s' c).1 ∧ R (step s c).2 (step' s' c).2

/-- Each command is allowed when it is given. -/
def Allowed (P : State → Cmd → Prop) (step : State → Cmd → Ans × State) : State → List Cmd → Prop
  | _, [] => True
  | s, c :: cs => P s c ∧ Allowed P step (step s c).2 cs

/-- **Machines that are related by a simulation for the allowed commands** give the same answers in
every run on these. -/
theorem SimulatesOn.runAll {P : State → Cmd → Prop} (h : SimulatesOn P R step step') {s : State}
    {s' : State'} (hs : R s s') {cs : List Cmd} (hcs : Allowed P step s cs) :
    (runAll step s cs).1 = (runAll step' s' cs).1 ∧ R (runAll step s cs).2 (runAll step' s' cs).2 := by
  induction cs generalizing s s' with
  | nil => exact ⟨rfl, hs⟩
  | cons c cs ih =>
    obtain ⟨hc, hrest⟩ := hcs
    obtain ⟨hanswer, hnext⟩ := h s s' c hs hc
    obtain ⟨hanswers, hend⟩ := ih hnext hrest
    exact ⟨congrArg₂ List.cons hanswer hanswers, hend⟩

/-- What is allowed in every state is allowed in every run. -/
theorem allowed_of_forall {P : State → Cmd → Prop} {cs : List Cmd} (h : ∀ c ∈ cs, ∀ s, P s c)
    (s : State) : Allowed P step s cs := by
  induction cs generalizing s with
  | nil => trivial
  | cons c cs ih =>
    refine ⟨h c List.mem_cons_self s, ih (fun c' hc' => ?_) _⟩
    exact h c' (List.mem_cons_of_mem c hc')

end Answers
