import Mathlib.Order.Defs.LinearOrder

/-!
# Signed 64-bit integers

The linear order of `Int64` and Euclidean division by a positive constant, over the value `toInt`.
-/

namespace Int64

instance instLinearOrder : LinearOrder Int64 where
  le_refl a := by simp
  le_trans a b c h h' := by
    rw [le_iff_toInt_le] at *
    omega
  lt_iff_le_not_ge a b := by
    simp only [le_iff_toInt_le, lt_iff_toInt_lt]
    omega
  le_antisymm a b h h' := by
    rw [le_iff_toInt_le] at *
    exact toInt_inj.1 (by omega)
  le_total a b := by
    simp only [le_iff_toInt_le]
    omega
  toDecidableLE := inferInstance
  toDecidableEq := inferInstance
  toDecidableLT := inferInstance

theorem le_maxVal (a : Int64) : a ≤ maxValue := by
  rw [le_iff_toInt_le]
  exact toInt_le a

theorem minVal_le (a : Int64) : minValue ≤ a := by
  rw [le_iff_toInt_le]
  exact minValue_le_toInt a

/-- `a.div_euclid(b)`. -/
def divEuclid (a b : Int64) : Int64 := ofInt (a.toInt / b.toInt)

theorem toInt_divEuclid {a b : Int64} (hb : 0 < b.toInt) :
    (a.divEuclid b).toInt = a.toInt / b.toInt := by
  have h1 := a.le_toInt
  have h2 := a.toInt_lt
  refine toInt_ofInt_of_le ?_ ?_
  · rw [Int.le_ediv_iff_mul_le hb]
    omega
  · rw [Int.ediv_lt_iff_lt_mul hb]
    omega

end Int64
