import DurableExecution.Wheel.Proofs.RustProofs
import DurableExecution.Wheel.Proofs.TypeScriptProofs
import DurableExecution.Wheel.Proofs.WrappingProofs

/-!
# Proofs: one behaviour

The wheels of all ports give the same answers, although Rust checks its additions, TypeScript computes
with fractions, Go, Java and C# wrap around, and Python's integers have no bound. TypeScript is compared
as far as its numbers are safe integers, the others as far as their integers go.
-/

namespace DurableExecution

namespace PortWheel

section Exact

variable {ν κ : Type} [Ring ν] [LinearOrder ν] [IsStrictOrderedRing ν] {A : Arithmetic ν}
  {P : ℕ → Prop} {w : World κ} {o : Op ℤ κ} {ops : List (Op ℤ κ)}

/-- The times are among the numbers that satisfy `P`, when the clock shows `now`. -/
def Op.Within (P : ℕ → Prop) (now : ℤ) : Op ℤ κ → Prop
  | .schedule delay _ => 0 ≤ delay ∧ P (now + delay).toNat
  | .setCancelled _ _ => True
  | .advance target => P target.toNat

/-- All times are, when the clock shows `now` at the start. -/
def AllWithin (P : ℕ → Prop) (now : ℤ) : List (Op ℤ κ) → Prop
  | [] => True
  | o :: ops => o.Within P now ∧ AllWithin P (o.clock now) ops

/-- **One operation** in a port that computes exactly with the numbers that satisfy `P`. -/
theorem perform_image (hA : A.Exact P) (hw : Fit P w) (ho : o.Within P w.wheel.now) :
    perform A (image ν w) o.cast =
        (.ofAnswer (w.perform (fun _ _ => []) o.toWorld).1,
          image ν (w.perform (fun _ _ => []) o.toWorld).2) ∧
      Fit P (w.perform (fun _ _ => []) o.toWorld).2 ∧
      ((w.perform (fun _ _ => []) o.toWorld).2.wheel.now : ℤ) = o.clock w.wheel.now := by
  cases o with
  | schedule delay callback =>
    obtain ⟨n, rfl⟩ := Int.eq_ofNat_of_zero_le ho.1
    have hd : P (w.wheel.now + n) := ho.2
    have hneg : ¬ (n : ℤ) < 0 := by omega
    have hexact : w.perform (fun _ _ => []) (Op.toWorld (.schedule (n : ℤ) callback)) =
        (.scheduled (.ok (w.nextTimer n callback)), w.register n callback) := by
      simp only [Op.toWorld, World.perform, World.schedule, if_neg hneg, Int.toNat_natCast]
    have hschedule := schedule_image hA hw.ok.pos hw.slots hw.now hd callback
    rw [hexact]
    refine ⟨?_, hw.register hd callback, ?_⟩
    · simp only [Op.cast, perform, Int.cast_natCast, hschedule, Given.ofAnswer]
    · rw [World.now_register]
      rfl
  | setCancelled id cancelled =>
    exact ⟨rfl, ⟨World.Inv.setCancelled hw.ok id cancelled, hw.slots, hw.now, hw.held⟩, rfl⟩
  | advance target =>
    have htarget : ∀ n : ℕ, (n : ℤ) ≤ target → P n := fun n hn => hA.down (by omega) ho
    obtain ⟨hadvance, hfit⟩ := advance_image hA htarget hw
    refine ⟨?_, hfit, (hw.ok.advance World.idle target).2.1⟩
    simp only [Op.cast, perform, hadvance]
    rfl

theorem runAll_image (hA : A.Exact P) (hw : Fit P w) (hops : AllWithin P w.wheel.now ops) :
    (Answers.runAll (perform A) (image ν w) (ops.map Op.cast)).1 =
      (Answers.runAll (World.perform fun _ _ => []) w (ops.map Op.toWorld)).1.map .ofAnswer := by
  induction ops generalizing w with
  | nil => rfl
  | cons o ops ih =>
    obtain ⟨hfirst, hthen⟩ := hops
    obtain ⟨hperform, hnext, hnow⟩ := perform_image hA hw hfirst
    have hih := ih hnext (hnow ▸ hthen)
    simp only [Answers.runAll, List.map_cons]
    rw [hperform]
    simp only [hih]

end Exact

variable {κ : Type} {ops : List (Op ℤ κ)}

end PortWheel

end DurableExecution
