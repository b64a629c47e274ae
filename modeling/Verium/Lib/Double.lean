import Mathlib.Algebra.Order.Ring.Int
import Mathlib.Tactic.Linarith
import Mathlib.Tactic.NormNum
import Mathlib.Tactic.Positivity

/-!
Integers in double precision: 53 significant bits, rounded to the nearest and on a tie to the
even one. Numbers with few enough bits are kept, the order of numbers is kept, and the error is
at most one part in `2 ^ 53`.
-/

namespace Verium.Lib

/-- The nearest multiple of `unit`, the even one if two are equally near. -/
def roundEven (unit m : Nat) : Nat :=
  let q := m / unit
  let r := m % unit
  (if unit < 2 * r ∨ 2 * r = unit ∧ q % 2 = 1 then q + 1 else q) * unit

/-- The distance between the doubles around a number of more than 53 bits; one below. -/
def doubleUnit (m : Nat) : Nat :=
  2 ^ (m.log2 + 1 - 53)

/-- The integer as a `double`. -/
def toDouble (x : ℤ) : ℤ :=
  x.sign * roundEven (doubleUnit x.natAbs) x.natAbs

section RoundEven

variable {unit m m' : Nat}

theorem roundEven_of_dvd (h : unit ∣ m) : roundEven unit m = m := by
  obtain ⟨q, rfl⟩ := h
  rcases Nat.eq_zero_or_pos unit with rfl | hpos
  · simp [roundEven]
  · simp only [roundEven, Nat.mul_mod_right, Nat.mul_zero, Nat.not_lt_zero, false_or]
    rw [if_neg (by omega), Nat.mul_div_cancel_left q hpos, Nat.mul_comm]

theorem le_roundEven (hpos : 0 < unit) : 2 * m ≤ 2 * roundEven unit m + unit := by
  have hsplit := Nat.div_add_mod m unit
  have hlt := Nat.mod_lt m hpos
  simp only [roundEven]
  split
  · rw [Nat.add_mul, Nat.mul_comm (m / unit)]
    omega
  · rw [Nat.mul_comm (m / unit)]
    omega

theorem roundEven_mono (h : m ≤ m') : roundEven unit m ≤ roundEven unit m' := by
  apply Nat.mul_le_mul_right
  have hquot := Nat.div_le_div_right (c := unit) h
  rcases hquot.eq_or_lt with heq | hlt
  · have hsplit := Nat.div_add_mod m unit
    have hsplit' := Nat.div_add_mod m' unit
    rw [← heq] at hsplit'
    rw [heq]
    split
    · rw [if_pos (by omega)]
    · split <;> omega
  · split <;> split <;> omega

end RoundEven

section ToDouble

variable {m m' : Nat}

theorem toDouble_natCast (m : Nat) : toDouble m = roundEven (doubleUnit m) m := by
  rcases Nat.eq_zero_or_pos m with rfl | hpos
  · decide
  · rw [toDouble, Int.sign_eq_one_of_pos (by exact_mod_cast hpos), one_mul, Int.natAbs_natCast]

theorem doubleUnit_dvd {k : Nat} (hm : m ≠ 0) (hlt : m < 2 ^ (53 + k)) : doubleUnit m ∣ 2 ^ k := by
  have hlog : m.log2 < 53 + k := (Nat.log2_lt hm).mpr hlt
  exact pow_dvd_pow 2 (by omega)

/-- A number is kept if all but its 53 leading bits are zero. -/
theorem toDouble_of_dvd {x : ℤ} {k : Nat} (hdvd : 2 ^ k ∣ x) (hlt : x.natAbs < 2 ^ (53 + k)) :
    toDouble x = x := by
  have hkept : roundEven (doubleUnit x.natAbs) x.natAbs = x.natAbs := by
    rcases eq_or_ne x.natAbs 0 with hzero | hne
    · rw [hzero]
      rfl
    · apply roundEven_of_dvd
      refine (doubleUnit_dvd hne hlt).trans ?_
      have habs := Int.natAbs_dvd_natAbs.mpr hdvd
      rwa [Int.natAbs_pow] at habs
  rw [toDouble, hkept, Int.sign_mul_natAbs]

theorem toDouble_mono (h : m ≤ m') : toDouble m ≤ toDouble m' := by
  rw [toDouble_natCast, toDouble_natCast, Int.ofNat_le]
  have hlog : m.log2 ≤ m'.log2 := by
    rcases eq_or_ne m 0 with rfl | hm
    · exact Nat.zero_le _
    · exact (Nat.le_log2 (by omega)).mpr ((Nat.log2_self_le hm).trans h)
  rcases hlog.eq_or_lt with heq | hlt
  · rw [doubleUnit, heq]
    exact roundEven_mono h
  · -- a power of two lies between the two numbers, and rounding does not cross it
    have hm' : m' ≠ 0 := by
      rintro rfl
      exact absurd hlt (Nat.not_lt_zero _)
    calc
      roundEven (doubleUnit m) m ≤ roundEven (doubleUnit m) (2 ^ (m.log2 + 1)) :=
        roundEven_mono Nat.lt_log2_self.le
      _ = 2 ^ (m.log2 + 1) := roundEven_of_dvd (pow_dvd_pow 2 (by omega))
      _ ≤ 2 ^ m'.log2 := Nat.pow_le_pow_right (by norm_num) hlt
      _ = roundEven (doubleUnit m') (2 ^ m'.log2) :=
        (roundEven_of_dvd (pow_dvd_pow 2 (by omega))).symm
      _ ≤ roundEven (doubleUnit m') m' := roundEven_mono (Nat.log2_self_le hm')

theorem le_toDouble (m : Nat) : 2 ^ 53 * (m : ℤ) ≤ 2 ^ 53 * toDouble m + m := by
  rcases Nat.lt_or_ge m (2 ^ 53) with hsmall | hlarge
  · rw [toDouble_of_dvd (k := 0) (by simp) (by simpa using hsmall)]
    omega
  · have hm : m ≠ 0 := by omega
    have hlog : 53 ≤ m.log2 := (Nat.le_log2 hm).mpr hlarge
    have hunit : doubleUnit m * 2 ^ 52 ≤ m := by
      rw [doubleUnit, ← pow_add, show m.log2 + 1 - 53 + 52 = m.log2 by omega]
      exact Nat.log2_self_le hm
    have hround := le_roundEven (m := m) (show 0 < doubleUnit m by unfold doubleUnit; positivity)
    rw [toDouble_natCast]
    omega

end ToDouble

end Verium.Lib
