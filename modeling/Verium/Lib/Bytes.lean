import Mathlib.Data.Nat.Bitwise
import Mathlib.Data.Nat.Digits.Defs
import Mathlib.Tactic

/-!
Fixed-width little-endian byte strings.
-/

namespace Verium.Lib

/-- The `width` low bytes of `value`, least significant byte first. -/
def leBytes : (width : Nat) → (value : Nat) → List UInt8
  | 0, _ => []
  | width + 1, value => UInt8.ofNat value :: leBytes width (value / 256)

/-- The number a byte string denotes when read least significant byte first. -/
def leNat : List UInt8 → Nat
  | [] => 0
  | byte :: rest => byte.toNat + 256 * leNat rest

@[simp]
theorem leBytes_length (width value : Nat) : (leBytes width value).length = width := by
  induction width generalizing value with
  | zero => rfl
  | succ width ih => simp [leBytes, ih]

theorem leNat_leBytes (width value : Nat) : leNat (leBytes width value) = value % 256 ^ width := by
  induction width generalizing value with
  | zero => simp [leBytes, leNat, Nat.mod_one]
  | succ width ih =>
      have hbyte : (UInt8.ofNat value).toNat = value % 256 := by simp
      rw [leBytes, leNat, ih, hbyte, pow_succ', Nat.mod_mul]

theorem leNat_leBytes_of_lt {width value : Nat} (h : value < 256 ^ width) :
    leNat (leBytes width value) = value := by
  rw [leNat_leBytes, Nat.mod_eq_of_lt h]

theorem take_leBytes {n width : Nat} (h : n ≤ width) (value : Nat) :
    (leBytes width value).take n = leBytes n value := by
  induction n generalizing width value with
  | zero => rfl
  | succ n ih =>
    obtain ⟨width, rfl⟩ : ∃ m, width = m + 1 := ⟨width - 1, by omega⟩
    rw [leBytes, List.take_succ_cons, ih (by omega), leBytes]

/-- The bytes from a place on are those of the quotient. -/
theorem take_drop_leBytes {k n width : Nat} (h : k + n ≤ width) {value : Nat} :
    ((leBytes width value).drop k).take n = leBytes n (value / 256 ^ k) := by
  induction k generalizing width value with
  | zero => rw [List.drop_zero, take_leBytes (by omega), pow_zero, Nat.div_one]
  | succ k ih =>
    obtain ⟨width, rfl⟩ : ∃ m, width = m + 1 := ⟨width - 1, by omega⟩
    rw [leBytes, List.drop_succ_cons, ih (by omega), Nat.div_div_eq_div_mul, ← pow_succ']

theorem leNat_lt (bytes : List UInt8) : leNat bytes < 256 ^ bytes.length := by
  induction bytes with
  | nil => simp [leNat]
  | cons byte rest ih =>
      have hbyte : byte.toNat < 256 := byte.toNat_lt
      rw [leNat, List.length_cons, pow_succ']
      omega

theorem leNat_concat (bytes : List UInt8) (back : UInt8) :
    leNat (bytes ++ [back]) = leNat bytes + 256 ^ bytes.length * back.toNat := by
  induction bytes with
  | nil => simp [leNat]
  | cons b bytes ih =>
    rw [List.cons_append, leNat, leNat, ih, List.length_cons, pow_succ']
    ring

theorem leBytes_leNat (bytes : List UInt8) : leBytes bytes.length (leNat bytes) = bytes := by
  induction bytes with
  | nil => rfl
  | cons byte rest ih =>
      have hbyte : byte.toNat < 256 := byte.toNat_lt
      have hlow : UInt8.ofNat (byte.toNat + 256 * leNat rest) = byte := by
        apply UInt8.toNat.inj
        rw [UInt8.toNat_ofNat']
        omega
      have hhigh : (byte.toNat + 256 * leNat rest) / 256 = leNat rest := by omega
      rw [List.length_cons, leNat, leBytes, hlow, hhigh, ih]

theorem and_sign_ne_zero_iff (b : UInt8) : b &&& 0x80 ≠ 0 ↔ 128 ≤ b.toNat := by
  have hbound := b.toNat_lt
  have hand : (b &&& 0x80).toNat = (b.toNat.testBit 7).toNat * 2 ^ 7 := by
    rw [UInt8.toNat_and]
    exact Nat.and_two_pow b.toNat 7
  rw [ne_eq, ← UInt8.toNat_inj, hand, Nat.testBit_eq_decide_div_mod_eq]
  by_cases h : b.toNat / 2 ^ 7 % 2 = 1
  · simp only [h, decide_true]
    norm_num
    omega
  · simp only [h, decide_false]
    norm_num
    omega

theorem and_sign_eq_zero_iff (b : UInt8) : b &&& 0x80 = 0 ↔ b.toNat < 128 := by
  rw [← not_iff_not, ← ne_eq, and_sign_ne_zero_iff, not_lt]

end Verium.Lib
