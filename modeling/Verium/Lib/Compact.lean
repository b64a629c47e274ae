import Mathlib.Tactic.NormNum
import Mathlib.Tactic.Positivity

/-!
A number written as its length in bytes and its three most significant bytes, with room for
a sign bit. Writing a number keeps it or rounds it down, never to zero, and keeps the order of
numbers.
-/

namespace Verium.Lib

/-- The number of bytes for the bits of a magnitude and a sign bit; none for zero. -/
def signedByteLength (m : Nat) : Nat :=
  if m = 0 then 0 else (m.log2 + 1) / 8 + 1

/-- The three most significant bytes of a number that is `len` bytes long. -/
def topBytes (len m : Nat) : Nat :=
  if len < 3 then m * 256 ^ (3 - len) else m / 256 ^ (len - 3)

/-- The number with these most significant bytes and zeros below. -/
def ofTopBytes (len word : Nat) : Nat :=
  if len < 3 then word / 256 ^ (3 - len) else word * 256 ^ (len - 3)

theorem lt_two_pow_signedByteLength {m : Nat} (hm : m ≠ 0) :
    m < 2 ^ (8 * signedByteLength m - 1) := by
  have hlog : m < 2 ^ (m.log2 + 1) := Nat.lt_log2_self
  refine lt_of_lt_of_le hlog (Nat.pow_le_pow_right (by omega) ?_)
  simp only [signedByteLength, hm, if_false]
  omega

theorem two_pow_le_of_signedByteLength {m : Nat} (hm : m ≠ 0) :
    2 ^ (8 * (signedByteLength m - 1) - 1) ≤ m := by
  refine le_trans (Nat.pow_le_pow_right (by omega) ?_) (Nat.log2_self_le hm)
  simp only [signedByteLength, hm, if_false]
  omega

theorem signedByteLength_le {m bits : Nat} (h : m < 2 ^ bits) :
    signedByteLength m ≤ bits / 8 + 1 := by
  by_cases hm : m = 0
  · simp [signedByteLength, hm]
  · have hlog : m.log2 < bits := (Nat.log2_lt hm).mpr h
    simp only [signedByteLength, hm, if_false]
    omega

theorem signedByteLength_mul_le {m a b x y : Nat} (hm : m ≤ a * b) (ha : a < 2 ^ x)
    (hb : b < 2 ^ y) : signedByteLength m ≤ (x + y) / 8 + 1 := by
  apply signedByteLength_le
  rw [pow_add]
  exact lt_of_le_of_lt hm (Nat.mul_lt_mul'' ha hb)

theorem pow_256 (n : Nat) : (256 : Nat) ^ n = 2 ^ (8 * n) := by
  rw [pow_mul]
  norm_num

/-- The three bytes leave the sign bit free. -/
theorem topBytes_lt (m : Nat) : topBytes (signedByteLength m) m < 2 ^ 23 := by
  by_cases hm : m = 0
  · simp [hm, topBytes, signedByteLength]
  have hlt := lt_two_pow_signedByteLength hm
  have hpos : 1 ≤ signedByteLength m := by simp [signedByteLength, hm]
  unfold topBytes
  split
  next hlen =>
    calc
      m * 256 ^ (3 - signedByteLength m)
          < 2 ^ (8 * signedByteLength m - 1) * 256 ^ (3 - signedByteLength m) :=
        Nat.mul_lt_mul_of_pos_right hlt (by positivity)
      _ = 2 ^ 23 := by
        rw [pow_256, ← pow_add]
        congr 1
        omega
  next hlen =>
    rw [Nat.div_lt_iff_lt_mul (by positivity), pow_256, ← pow_add]
    refine lt_of_lt_of_le hlt (Nat.pow_le_pow_right (by omega) ?_)
    omega

theorem ofTopBytes_topBytes_le (len m : Nat) : ofTopBytes len (topBytes len m) ≤ m := by
  unfold ofTopBytes topBytes
  split
  · exact le_of_eq (Nat.mul_div_cancel m (by positivity))
  · exact Nat.div_mul_le_self m _

theorem ofTopBytes_topBytes_pos {m : Nat} (hm : m ≠ 0) :
    0 < ofTopBytes (signedByteLength m) (topBytes (signedByteLength m) m) := by
  unfold ofTopBytes topBytes
  split
  · rw [Nat.mul_div_cancel m (by positivity)]
    exact Nat.pos_of_ne_zero hm
  next hlen =>
    refine Nat.mul_pos (Nat.div_pos ?_ (by positivity)) (by positivity)
    rw [pow_256]
    refine le_trans (Nat.pow_le_pow_right (by omega) ?_) (two_pow_le_of_signedByteLength hm)
    omega

theorem signedByteLength_mono {m m' : Nat} (h : m ≤ m') :
    signedByteLength m ≤ signedByteLength m' := by
  by_cases hm : m = 0
  · simp [signedByteLength, hm]
  · have hm' : m' ≠ 0 := by omega
    have hlog : m.log2 ≤ m'.log2 := (Nat.le_log2 hm').mpr ((Nat.log2_self_le hm).trans h)
    simp only [signedByteLength, hm, hm', if_false]
    omega

theorem ofTopBytes_topBytes_le_of_le {m m' : Nat} (len : Nat) (h : m ≤ m') :
    ofTopBytes len (topBytes len m) ≤ ofTopBytes len (topBytes len m') := by
  unfold ofTopBytes topBytes
  split
  · exact Nat.div_le_div_right (Nat.mul_le_mul_right _ h)
  · exact Nat.mul_le_mul_right _ (Nat.div_le_div_right h)

/-- Rounding leaves the leading bit, so the length is kept. -/
theorem two_pow_le_ofTopBytes_topBytes {m : Nat} (hm : m ≠ 0) :
    2 ^ (8 * (signedByteLength m - 1) - 1) ≤
      ofTopBytes (signedByteLength m) (topBytes (signedByteLength m) m) := by
  have hle := two_pow_le_of_signedByteLength hm
  unfold ofTopBytes topBytes
  split
  · rw [Nat.mul_div_cancel m (by positivity)]
    exact hle
  next hlen =>
    have hsplit : 2 ^ (8 * (signedByteLength m - 1) - 1) =
        2 ^ 15 * 256 ^ (signedByteLength m - 3) := by
      rw [pow_256, ← pow_add]
      congr 1
      omega
    rw [hsplit] at hle ⊢
    exact Nat.mul_le_mul_right _ ((Nat.le_div_iff_mul_le (by positivity)).mpr hle)

theorem ofTopBytes_topBytes_mono {m m' : Nat} (h : m ≤ m') :
    ofTopBytes (signedByteLength m) (topBytes (signedByteLength m) m) ≤
      ofTopBytes (signedByteLength m') (topBytes (signedByteLength m') m') := by
  rcases (signedByteLength_mono h).eq_or_lt with hlen | hlen
  · rw [hlen]
    exact ofTopBytes_topBytes_le_of_le _ h
  · -- The shorter number is below every number of the longer length.
    by_cases hm : m = 0
    · simp [hm, ofTopBytes, topBytes, signedByteLength]
    have hm' : m' ≠ 0 := by omega
    calc
      ofTopBytes (signedByteLength m) (topBytes (signedByteLength m) m) ≤ m :=
        ofTopBytes_topBytes_le _ _
      _ ≤ 2 ^ (8 * signedByteLength m - 1) := (lt_two_pow_signedByteLength hm).le
      _ ≤ 2 ^ (8 * (signedByteLength m' - 1) - 1) := by
        apply Nat.pow_le_pow_right (by omega)
        omega
      _ ≤ _ := two_pow_le_ofTopBytes_topBytes hm'

theorem ofTopBytes_topBytes_two_pow (k : Nat) :
    ofTopBytes (signedByteLength (2 ^ k)) (topBytes (signedByteLength (2 ^ k)) (2 ^ k)) =
      2 ^ k := by
  have hlen : signedByteLength (2 ^ k) = (k + 1) / 8 + 1 := by
    rw [signedByteLength, if_neg (by positivity), Nat.log2_two_pow]
  unfold ofTopBytes topBytes
  split
  · exact Nat.mul_div_cancel _ (by positivity)
  · apply Nat.div_mul_cancel
    rw [pow_256]
    apply pow_dvd_pow
    omega

/-- Rounding does not take a number below a power of two. -/
theorem two_pow_le_round {k m : Nat} (h : 2 ^ k ≤ m) :
    2 ^ k ≤ ofTopBytes (signedByteLength m) (topBytes (signedByteLength m) m) := by
  calc
    2 ^ k = _ := (ofTopBytes_topBytes_two_pow k).symm
    _ ≤ _ := ofTopBytes_topBytes_mono h

end Verium.Lib
