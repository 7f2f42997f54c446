import Mathlib.Data.BitVec
import Mathlib.Order.Lattice

/-!
# Signed machine integers

The integers of `w` bits in two's complement, whose operations wrap around, in the order of their
signed values. The value of a result is known when the exact result is in range, even if something on
the way to it was not.
-/

/-- The signed integers of `w` bits. -/
def Signed (w : ℕ) : Type := BitVec w

namespace Signed

variable {w : ℕ}

instance : CommRing (Signed w) := inferInstanceAs (CommRing (BitVec w))

/-- The signed value. -/
def toInt (x : Signed w) : ℤ := BitVec.toInt x

theorem toInt_injective : Function.Injective (toInt : Signed w → ℤ) := fun _ _ h => BitVec.toInt_inj.mp h

instance : LinearOrder (Signed w) := LinearOrder.lift' toInt toInt_injective

theorem lt_iff {x y : Signed w} : x < y ↔ x.toInt < y.toInt := Iff.rfl

/-- The integers that `w` bits can represent. -/
def InRange (w : ℕ) (z : ℤ) : Prop := -2 ^ (w - 1) ≤ z ∧ z < 2 ^ (w - 1)

theorem inRange_natCast {n : ℕ} (hn : n < 2 ^ (w - 1)) : InRange w n := by
  have hn' : (n : ℤ) < 2 ^ (w - 1) := by exact_mod_cast hn
  exact ⟨by omega, hn'⟩

/-- **An integer in range** is the value of its wrapped representation. -/
theorem toInt_intCast (hw : 0 < w) {z : ℤ} (hz : InRange w z) : toInt (z : Signed w) = z :=
  BitVec.toInt_ofInt_eq_self hw hz.1 hz.2

theorem intCast_toInt (x : Signed w) : (x.toInt : Signed w) = x := BitVec.ofInt_toInt

theorem inRange_toInt (x : Signed w) : InRange w x.toInt :=
  ⟨BitVec.le_toInt x, BitVec.toInt_lt⟩

theorem intCast_lt_iff (hw : 0 < w) {y z : ℤ} (hy : InRange w y) (hz : InRange w z) :
    (y : Signed w) < (z : Signed w) ↔ y < z := by
  rw [lt_iff, toInt_intCast hw hy, toInt_intCast hw hz]

theorem intCast_inj (hw : 0 < w) {y z : ℤ} (hy : InRange w y) (hz : InRange w z) :
    (y : Signed w) = (z : Signed w) ↔ y = z := by
  constructor
  · intro h
    rw [← toInt_intCast hw hy, h, toInt_intCast hw hz]
  · rintro rfl
    rfl

/-- A natural number in range is the value of its representation. -/
theorem toInt_natCast (hw : 0 < w) {n : ℕ} (hn : n < 2 ^ (w - 1)) : ((n : ℕ) : Signed w).toInt = n := by
  rw [← Int.cast_natCast]
  exact toInt_intCast hw (inRange_natCast hn)

/-- A difference is compared exactly when it is in range, whether its two terms are or not. -/
theorem sub_lt_intCast_iff (hw : 0 < w) {x y z : ℤ} (hxy : InRange w (x - y)) (hz : InRange w z) :
    (x : Signed w) - (y : Signed w) < (z : Signed w) ↔ x - y < z := by
  rw [← Int.cast_sub]
  exact intCast_lt_iff hw hxy hz

end Signed
