import Mathlib.Data.List.DropRight
import Mathlib.Data.Nat.Digits.Lemmas
import Mathlib.Tactic

/-!
Decimal digits in ASCII: the number a string of digits stands for, the digits of a number, and the
digits of a number in a fixed width.
-/

namespace Verium.Lib.Decimal

def zero : UInt8 := 0x30
def nine : UInt8 := 0x39

def isDigit (c : UInt8) : Bool :=
  zero ≤ c && c ≤ nine

/-- What a digit counts. -/
def digit (c : UInt8) : Nat :=
  c.toNat - 0x30

/-- The digit for a number below ten. -/
def ofDigit (d : Nat) : UInt8 :=
  UInt8.ofNat (0x30 + d)

/-- The number that digits stand for, the most significant one first. -/
def value (ds : List UInt8) : Nat :=
  ds.foldl (fun n c => n * 10 + digit c) 0

/-- The string consists of digits. -/
def AllDigits (ds : List UInt8) : Prop :=
  ∀ c ∈ ds, isDigit c = true

/-- The last `width` digits of a number. -/
def padded : (width : Nat) → (n : Nat) → List UInt8
  | 0, _ => []
  | width + 1, n => padded width (n / 10) ++ [ofDigit (n % 10)]

/-- The digits of a number, without a zero in front of another digit. -/
def ofNat (n : Nat) : List UInt8 :=
  padded (max 1 (Nat.digits 10 n).length) n

section Digit

variable {c : UInt8} {d : Nat}

theorem isDigit_iff : isDigit c = true ↔ 0x30 ≤ c.toNat ∧ c.toNat ≤ 0x39 := by
  simp [isDigit, zero, nine, UInt8.le_iff_toNat_le]

theorem digit_lt (h : isDigit c = true) : digit c < 10 := by
  have := (isDigit_iff.mp h).2
  simp only [digit]
  omega

theorem toNat_ofDigit (h : d < 10) : (ofDigit d).toNat = 0x30 + d := by
  have hlt : 0x30 + d < UInt8.size := by
    have : UInt8.size = 256 := rfl
    omega
  exact UInt8.toNat_ofNat_of_lt' hlt

theorem isDigit_ofDigit (h : d < 10) : isDigit (ofDigit d) = true := by
  rw [isDigit_iff, toNat_ofDigit h]
  omega

theorem digit_ofDigit (h : d < 10) : digit (ofDigit d) = d := by
  rw [digit, toNat_ofDigit h]
  omega

end Digit

section Value

variable {a b ds : List UInt8} {c : UInt8}

@[simp]
theorem value_nil : value [] = 0 :=
  rfl

theorem foldl_value (n : Nat) :
    ds.foldl (fun n c => n * 10 + digit c) n = n * 10 ^ ds.length + value ds := by
  induction ds generalizing n with
  | nil => simp
  | cons c ds ih =>
    have hcons : value (c :: ds) = (0 * 10 + digit c) * 10 ^ ds.length + value ds := ih _
    rw [List.foldl_cons, ih, hcons, List.length_cons, pow_succ]
    ring

theorem value_append : value (a ++ b) = value a * 10 ^ b.length + value b := by
  rw [value, List.foldl_append, foldl_value]
  rfl

theorem value_cons : value (c :: ds) = digit c * 10 ^ ds.length + value ds := by
  have hsingle : value [c] = digit c := by simp [value]
  rw [← List.singleton_append, value_append, hsingle]

theorem value_concat : value (ds ++ [c]) = value ds * 10 + digit c := by
  simp [value]

@[simp]
theorem allDigits_nil : AllDigits [] := nofun

theorem allDigits_append : AllDigits (a ++ b) ↔ AllDigits a ∧ AllDigits b :=
  List.forall_mem_append

theorem allDigits_cons : AllDigits (c :: ds) ↔ isDigit c = true ∧ AllDigits ds :=
  List.forall_mem_cons

theorem value_lt (h : AllDigits ds) : value ds < 10 ^ ds.length := by
  induction ds with
  | nil => simp
  | cons c ds ih =>
    obtain ⟨hc, hds⟩ := allDigits_cons.mp h
    have hdigit := digit_lt hc
    have hrest := ih hds
    rw [value_cons, List.length_cons, pow_succ]
    nlinarith

theorem value_replicate_zero (n : Nat) : value (List.replicate n zero) = 0 := by
  induction n with
  | zero => rfl
  | succ n ih =>
    rw [List.replicate_succ, value_cons, ih]
    simp [digit, zero]

end Value

section Padded

variable {width n : Nat}

@[simp]
theorem length_padded : (padded width n).length = width := by
  induction width generalizing n with
  | zero => rfl
  | succ width ih => simp [padded, ih]

theorem allDigits_padded : AllDigits (padded width n) := by
  induction width generalizing n with
  | zero => exact allDigits_nil
  | succ width ih =>
    refine allDigits_append.mpr ⟨ih, allDigits_cons.mpr ⟨?_, allDigits_nil⟩⟩
    exact isDigit_ofDigit (Nat.mod_lt n (by decide))

theorem value_padded : value (padded width n) = n % 10 ^ width := by
  induction width generalizing n with
  | zero => simp [padded, Nat.mod_one]
  | succ width ih =>
    rw [padded, value_concat, ih, digit_ofDigit (Nat.mod_lt n (by decide)), pow_succ',
      Nat.mod_mul, Nat.mul_comm, Nat.add_comm]

theorem value_padded_of_lt (h : n < 10 ^ width) : value (padded width n) = n := by
  rw [value_padded, Nat.mod_eq_of_lt h]

end Padded

section OfNat

variable {n : Nat}

theorem allDigits_ofNat : AllDigits (ofNat n) :=
  allDigits_padded

theorem value_ofNat : value (ofNat n) = n := by
  refine value_padded_of_lt ?_
  have hlt := Nat.lt_base_pow_length_digits (b := 10) (m := n) (by decide)
  exact hlt.trans_le (Nat.pow_le_pow_right (by decide) (le_max_right _ _))

theorem length_ofNat_le {k : Nat} (hk : 1 ≤ k) (h : n < 10 ^ k) : (ofNat n).length ≤ k := by
  rw [ofNat, length_padded]
  exact max_le hk ((Nat.digits_length_le_iff (by decide) n).mpr h)

end OfNat

end Verium.Lib.Decimal
