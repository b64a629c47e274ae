import Mathlib.Algebra.BigOperators.Group.List.Basic
import Mathlib.Tactic.NormNum

/-!
64-bit signed arithmetic against exact arithmetic: sums in `Int64` are the exact sums
reduced to the balanced residue modulo `2 ^ 64`, and equal to them when these fit.
-/

namespace Verium.Lib

/-- The exact value has a signed 64-bit representation. -/
def Fits (x : ℤ) : Prop :=
  -2 ^ 63 ≤ x ∧ x < 2 ^ 63

instance decidableFits : DecidablePred Fits := fun x =>
  inferInstanceAs (Decidable (-2 ^ 63 ≤ x ∧ x < 2 ^ 63))

/-- The number a 64-bit signed register shows for the exact value `x`. -/
def wrap64 (x : ℤ) : ℤ :=
  x.bmod (2 ^ 64)

theorem wrap64_of_fits {x : ℤ} (hlow : -2 ^ 63 ≤ x) (hhigh : x < 2 ^ 63) : wrap64 x = x := by
  unfold wrap64
  rw [Int.bmod_def]
  norm_num at *
  omega

theorem wrap64_le {x : ℤ} (hlow : -2 ^ 63 ≤ x) : wrap64 x ≤ x := by
  unfold wrap64
  rw [Int.bmod_def]
  norm_num at *
  omega

theorem wrap64_wrap64_add (x y : ℤ) : wrap64 (wrap64 x + y) = wrap64 (x + y) := by
  unfold wrap64
  exact Int.bmod_add_bmod

theorem wrap64_add_wrap64 (x y : ℤ) : wrap64 (x + wrap64 y) = wrap64 (x + y) := by
  rw [add_comm, wrap64_wrap64_add, add_comm]

theorem wrap64_wrap64_sub (x y : ℤ) : wrap64 (wrap64 x - y) = wrap64 (x - y) := by
  rw [sub_eq_add_neg, wrap64_wrap64_add, ← sub_eq_add_neg]

theorem wrap64_sub_wrap64 (x y : ℤ) : wrap64 (x - wrap64 y) = wrap64 (x - y) := by
  unfold wrap64
  exact Int.sub_bmod_bmod

instance instAddCommGroupInt64 : AddCommGroup Int64 where
  add_assoc := Int64.add_assoc
  zero_add := Int64.zero_add
  add_zero := Int64.add_zero
  add_comm := Int64.add_comm
  neg_add_cancel := Int64.add_left_neg
  sub_eq_add_neg := Int64.sub_eq_add_neg
  nsmul := nsmulRec
  zsmul := zsmulRec

theorem toInt_eq_wrap64 (a : Int64) : a.toInt = wrap64 a.toInt := by
  rw [wrap64_of_fits a.le_toInt a.toInt_lt]

theorem toInt_add (a b : Int64) : (a + b).toInt = wrap64 (a.toInt + b.toInt) :=
  Int64.toInt_add a b

theorem toInt_sub (a b : Int64) : (a - b).toInt = wrap64 (a.toInt - b.toInt) :=
  Int64.toInt_sub a b

theorem toInt_add_nonneg {a b : Int64} (ha : 0 ≤ a.toInt) (hb : 0 ≤ b.toInt) :
    (a + b).toInt = a.toInt + b.toInt ∧ a.toInt + b.toInt < 2 ^ 63 ∨
      (a + b).toInt < 0 ∧ 2 ^ 63 ≤ a.toInt + b.toInt := by
  have hla := a.toInt_lt
  have hlb := b.toInt_lt
  rw [toInt_add]
  unfold wrap64
  rw [Int.bmod_def]
  norm_num at *
  omega

theorem toInt_sub_nonneg {a b : Int64} (ha : 0 ≤ a.toInt) (hb : 0 ≤ b.toInt) :
    (a - b).toInt = a.toInt - b.toInt := by
  have hla := a.toInt_lt
  have hlb := b.toInt_lt
  rw [toInt_sub, wrap64_of_fits] <;> omega

theorem toNat_toUInt64 {a : Int64} (h : 0 ≤ a.toInt) : a.toUInt64.toNat = a.toInt.toNat := by
  have hbits : a.toInt = (a.toUInt64.toNat : ℤ).bmod (2 ^ 64) := by
    rw [← Int64.toInt_toBitVec, BitVec.toInt_eq_toNat_bmod]
    rfl
  have hlt := a.toUInt64.toNat_lt
  rw [Int.bmod_def] at hbits
  norm_num at hbits
  omega

theorem toInt_sum (l : List Int64) : l.sum.toInt = wrap64 (l.map Int64.toInt).sum := by
  induction l with
  | nil => rfl
  | cons a rest ih => rw [List.sum_cons, toInt_add, ih, wrap64_add_wrap64, List.map_cons,
      List.sum_cons]

end Verium.Lib
