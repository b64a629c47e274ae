import Mathlib.Data.Nat.Bitwise
import Verium.Primitives.Deserialize

/-!
The variable-length integers of `serialize.h`: base 128, most significant digit first, one
subtracted from every digit but the last. The integer type is given by its number of bits.
-/

namespace Verium

open Lib

/-- `(n & 0x7F) | (len ? 0x80 : 0x00)`. -/
def varIntByte (n : Nat) (more : Bool) : UInt8 :=
  UInt8.ofNat ((n &&& 0x7F) ||| if more then 0x80 else 0x00)

/-- The loop of `WriteVarInt` with `left` bytes of `tmp` unused; `out` is what has been filled,
last byte first. -/
def writeVarIntLoop : (left n : Nat) → (more : Bool) → (out : Bytes) → Bytes
  | 0, _, _, out => out
  | left + 1, n, more, out =>
      let out := varIntByte n more :: out
      if n ≤ 0x7F then out else writeVarIntLoop left ((n >>> 7) - 1) true out

def writeVarInt (bits n : Nat) : Bytes :=
  writeVarIntLoop ((bits + 6) / 7) n false []

/-- The loop of `GetSizeOfVarInt`. -/
def getSizeOfVarInt (n : Nat) : Nat :=
  if n ≤ 0x7F then 1 else getSizeOfVarInt ((n >>> 7) - 1) + 1
termination_by n
decreasing_by
  rw [Nat.shiftRight_eq_div_pow]
  omega

def varIntTooLarge : Failure := .exception "ReadVarInt(): size too large"

/-- The loop of `ReadVarInt`; `max` is the largest value of the type. -/
def readVarIntLoop (max n : Nat) : Bytes → Except Failure (Nat × Bytes)
  | [] => .error endOfData
  | chData :: rest =>
      if max >>> 7 < n then .error varIntTooLarge
      else
        let n := (n <<< 7) ||| (chData.toNat &&& 0x7F)
        if chData.toNat &&& 0x80 ≠ 0 then
          if n = max then .error varIntTooLarge else readVarIntLoop max (n + 1) rest
        else .ok (n, rest)

def readVarInt (bits : Nat) : StreamReader Nat :=
  readVarIntLoop (2 ^ bits - 1) 0

theorem varIntByte_toNat (n : Nat) (more : Bool) :
    (varIntByte n more).toNat = n % 128 + if more then 128 else 0 := by
  have hlow : n &&& 0x7F = n % 2 ^ 7 := Nat.and_two_pow_sub_one_eq_mod n 7
  unfold varIntByte
  rw [UInt8.toNat_ofNat', hlow]
  cases more with
  | false =>
    rw [if_neg Bool.false_ne_true, Nat.or_zero]
    omega
  | true =>
    have hor : n % 2 ^ 7 ||| 2 ^ 7 * 1 = 2 ^ 7 * 1 + n % 2 ^ 7 := by
      rw [Nat.or_comm]
      exact (Nat.two_pow_add_eq_or_of_lt (Nat.mod_lt n (by norm_num)) 1).symm
    rw [if_pos rfl]
    change (n % 2 ^ 7 ||| 2 ^ 7 * 1) % 2 ^ 8 = _
    rw [hor]
    omega

theorem varIntByte_mod (n : Nat) (more : Bool) : (varIntByte n more).toNat % 128 = n % 128 := by
  rw [varIntByte_toNat]
  cases more <;> simp

theorem le_varIntByte_iff (n : Nat) (more : Bool) :
    128 ≤ (varIntByte n more).toNat ↔ more = true := by
  have hmod := Nat.mod_lt n (show 0 < 128 by norm_num)
  rw [varIntByte_toNat]
  cases more with
  | false => simpa using hmod
  | true => simp

theorem shiftLeft_or_low (n b : Nat) : (n <<< 7) ||| (b &&& 0x7F) = n * 128 + b % 128 := by
  have hlow : b &&& 0x7F = b % 2 ^ 7 := Nat.and_two_pow_sub_one_eq_mod b 7
  rw [hlow, ← Nat.shiftLeft_add_eq_or_of_lt (Nat.mod_lt b (by norm_num)), Nat.shiftLeft_eq]

theorem continues_iff (b : UInt8) : b.toNat &&& 0x80 ≠ 0 ↔ 128 ≤ b.toNat := by
  rw [← and_sign_ne_zero_iff, ne_eq, ne_eq, ← UInt8.toNat_inj, UInt8.toNat_and]
  rfl

/-- Bytes with the high bit set up to the last one, whose high bit is `more`. -/
inductive VarIntDigits (more : Bool) : Bytes → Prop
  | last {b : UInt8} (h : 128 ≤ b.toNat ↔ more = true) : VarIntDigits more [b]
  | digit {b : UInt8} {a : Bytes} (h : 128 ≤ b.toNat) (rest : VarIntDigits more a) :
      VarIntDigits more (b :: a)

/-- The number that the bytes `a` encode, as the comment in `serialize.h` defines it:
`(a[len-1] & 0x7F) + sum(i=1..len-1, 128^i*((a[len-i-1] & 0x7F)+1))`. -/
def varIntValue : Bytes → Nat
  | [] => 0
  | [b] => b.toNat % 128
  | b :: a => 128 ^ a.length * (b.toNat % 128 + 1) + varIntValue a

theorem VarIntDigits.ne_nil {more : Bool} {a : Bytes} (h : VarIntDigits more a) : a ≠ [] := by
  cases h <;> exact List.cons_ne_nil _ _

theorem varIntValue_cons {b : UInt8} {a : Bytes} (h : a ≠ []) :
    varIntValue (b :: a) = 128 ^ a.length * (b.toNat % 128 + 1) + varIntValue a := by
  cases a with
  | nil => exact absurd rfl h
  | cons c a => rfl

theorem varIntValue_concat {a : Bytes} (b : UInt8) (h : a ≠ []) :
    varIntValue (a ++ [b]) = (varIntValue a + 1) * 128 + b.toNat % 128 := by
  induction a with
  | nil => exact absurd rfl h
  | cons c a ih =>
    rw [List.cons_append, varIntValue_cons (by simp)]
    cases a with
    | nil =>
      simp [varIntValue]
      ring
    | cons d a =>
      rw [ih (List.cons_ne_nil d a), varIntValue_cons (List.cons_ne_nil d a)]
      simp only [List.length_append, List.length_cons, List.length_nil]
      ring

theorem VarIntDigits.concat {more : Bool} {a : Bytes} {b : UInt8} (h : VarIntDigits true a)
    (hb : 128 ≤ b.toNat ↔ more = true) : VarIntDigits more (a ++ [b]) := by
  induction h with
  | last hc => exact .digit (hc.mpr rfl) (.last hb)
  | digit hc _ ih => exact .digit hc ih

/-- The bytes before the last one are digits of their own, with the high bit in every byte. -/
theorem VarIntDigits.cases_concat {more : Bool} {a : Bytes} (h : VarIntDigits more a) :
    ∃ init b, a = init ++ [b] ∧ (128 ≤ b.toNat ↔ more = true) ∧
      (init = [] ∨ VarIntDigits true init) := by
  induction h with
  | last hb => exact ⟨[], _, rfl, hb, .inl rfl⟩
  | @digit c a hc _ ih =>
    obtain ⟨init, b, rfl, hb, hinit⟩ := ih
    refine ⟨c :: init, b, rfl, hb, .inr ?_⟩
    rcases hinit with rfl | hinit
    · exact .last (by simp [hc])
    · exact .digit hc hinit

theorem exists_varIntDigits (n : Nat) (more : Bool) :
    ∃ a, VarIntDigits more a ∧ varIntValue a = n := by
  induction n using Nat.strongRecOn generalizing more with
  | ind n ih =>
    by_cases hsmall : n ≤ 0x7F
    · refine ⟨[varIntByte n more], .last (le_varIntByte_iff n more), ?_⟩
      rw [varIntValue, varIntByte_mod]
      omega
    · obtain ⟨a, ha, hvalue⟩ := ih (n / 128 - 1) (by omega) true
      refine ⟨a ++ [varIntByte n more], ha.concat (le_varIntByte_iff n more), ?_⟩
      rw [varIntValue_concat _ ha.ne_nil, hvalue, varIntByte_mod]
      omega

/-- A number of two digits or more is at least `128` to the number of digits before the last. -/
theorem VarIntDigits.pow_le {more : Bool} {a : Bytes} (h : VarIntDigits more a) :
    a.length = 1 ∨ 128 ^ (a.length - 1) ≤ varIntValue a := by
  cases h with
  | last => exact .inl rfl
  | @digit b a hb rest =>
    right
    rw [varIntValue_cons rest.ne_nil, List.length_cons, Nat.add_sub_cancel]
    exact (Nat.le_mul_of_pos_right _ (Nat.succ_pos _)).trans (Nat.le_add_right _ _)

theorem varIntByte_eq {b : UInt8} {n : Nat} {more : Bool} (hb : 128 ≤ b.toNat ↔ more = true)
    (hlow : b.toNat % 128 = n % 128) : varIntByte n more = b := by
  have hbound := b.toNat_lt
  apply UInt8.toNat_inj.mp
  rw [varIntByte_toNat]
  cases more with
  | false =>
    simp only [Bool.false_eq_true, iff_false, not_le] at hb
    simp only [Bool.false_eq_true, if_false]
    omega
  | true =>
    simp only [iff_true] at hb
    simp only [if_true]
    omega

/-- One round of the writer on the digits of a number: it takes the last one. -/
theorem varIntValue_step {init : Bytes} (b : UInt8) (h : init ≠ []) :
    ¬ varIntValue (init ++ [b]) ≤ 0x7F ∧
      (varIntValue (init ++ [b]) >>> 7) - 1 = varIntValue init ∧
      b.toNat % 128 = varIntValue (init ++ [b]) % 128 := by
  rw [varIntValue_concat b h, Nat.shiftRight_eq_div_pow]
  omega

theorem writeVarIntLoop_digits {more : Bool} {a : Bytes} (h : VarIntDigits more a) {left : Nat}
    (hleft : a.length ≤ left) (out : Bytes) :
    writeVarIntLoop left (varIntValue a) more out = a ++ out := by
  -- The writer fills the buffer from the last digit on, so the induction goes by the buffer.
  induction left generalizing more a out with
  | zero => exact absurd (List.length_eq_zero_iff.mp (Nat.le_zero.mp hleft)) h.ne_nil
  | succ left ih =>
    obtain ⟨init, b, rfl, hb, rfl | hinit⟩ := h.cases_concat
    · have hsmall : b.toNat % 128 ≤ 0x7F := by omega
      simp only [List.nil_append, varIntValue, writeVarIntLoop, hsmall, if_true,
        varIntByte_eq hb (Nat.mod_mod _ _).symm, List.cons_append]
    · obtain ⟨hlarge, hhigh, hlow⟩ := varIntValue_step b hinit.ne_nil
      rw [List.length_append, List.length_singleton] at hleft
      simp only [writeVarIntLoop, if_neg hlarge, hhigh, varIntByte_eq hb hlow]
      rw [ih hinit (by omega), List.append_assoc, List.singleton_append]

theorem getSizeOfVarInt_digits {more : Bool} {a : Bytes} (h : VarIntDigits more a) :
    getSizeOfVarInt (varIntValue a) = a.length := by
  induction hlength : a.length generalizing more a with
  | zero => exact absurd (List.length_eq_zero_iff.mp hlength) h.ne_nil
  | succ k ih =>
    obtain ⟨init, b, rfl, hb, rfl | hinit⟩ := h.cases_concat
    · have hsmall : b.toNat % 128 ≤ 0x7F := by omega
      rw [getSizeOfVarInt, List.nil_append, varIntValue, if_pos hsmall]
      simpa using hlength
    · obtain ⟨hlarge, hhigh, -⟩ := varIntValue_step b hinit.ne_nil
      rw [List.length_append, List.length_singleton, Nat.add_right_cancel_iff] at hlength
      rw [getSizeOfVarInt, if_neg hlarge, hhigh, ih hinit hlength]

/-- The buffer of `WriteVarInt` has room for the digits of every value of the type. -/
theorem VarIntDigits.length_le {a : Bytes} {bits : Nat} (h : VarIntDigits false a)
    (hbits : 0 < bits) (hvalue : varIntValue a < 2 ^ bits) : a.length ≤ (bits + 6) / 7 := by
  rcases h.pow_le with hone | hpow
  · omega
  · have hlt : 2 ^ (7 * (a.length - 1)) < 2 ^ bits := by
      rw [pow_mul]
      exact lt_of_le_of_lt hpow hvalue
    have := (Nat.pow_lt_pow_iff_right (by norm_num)).mp hlt
    omega

theorem writeVarInt_digits {a : Bytes} {bits : Nat} (h : VarIntDigits false a) (hbits : 0 < bits)
    (hvalue : varIntValue a < 2 ^ bits) : writeVarInt bits (varIntValue a) = a := by
  unfold writeVarInt
  rw [writeVarIntLoop_digits h (h.length_le hbits hvalue), List.append_nil]

theorem readVarIntLoop_cons (max n : Nat) (b : UInt8) (rest : Bytes) :
    readVarIntLoop max n (b :: rest) =
      if max / 128 < n then .error varIntTooLarge
      else if 128 ≤ b.toNat then
        if n * 128 + b.toNat % 128 = max then .error varIntTooLarge
        else readVarIntLoop max (n * 128 + b.toNat % 128 + 1) rest
      else .ok (n * 128 + b.toNat % 128, rest) := by
  simp only [readVarIntLoop, shiftLeft_or_low, continues_iff, Nat.shiftRight_eq_div_pow]

/-- The two guards of the loop, before the shift and before the increment, refuse exactly the
numbers above `max`; the first one needs that the seven low bits of `max` are set. -/
theorem readVarIntLoop_digits {max : Nat} (hmax : max % 128 = 127) {a : Bytes}
    (h : VarIntDigits false a) (n : Nat) (rest : Bytes) :
    readVarIntLoop max n (a ++ rest) =
      if n * 128 ^ a.length + varIntValue a ≤ max
      then .ok (n * 128 ^ a.length + varIntValue a, rest) else .error varIntTooLarge := by
  induction h generalizing n with
  | @last b hb =>
    have hlast : ¬ 128 ≤ b.toNat := by simpa using hb
    simp only [List.singleton_append, readVarIntLoop_cons, if_neg hlast, varIntValue,
      List.length_singleton, pow_one]
    split <;> split <;> first | rfl | omega
  | @digit b a hb digits ih =>
    have hpos : 0 < 128 ^ a.length := by positivity
    have hvalue : n * 128 ^ (a.length + 1) + varIntValue (b :: a) =
        (n * 128 + b.toNat % 128 + 1) * 128 ^ a.length + varIntValue a := by
      rw [varIntValue_cons digits.ne_nil]
      ring
    have hlarge : n * 128 + b.toNat % 128 + 1 ≤
        (n * 128 + b.toNat % 128 + 1) * 128 ^ a.length := Nat.le_mul_of_pos_right _ hpos
    rw [List.cons_append, readVarIntLoop_cons, if_pos hb, List.length_cons, hvalue, ih]
    split
    next hshift => rw [if_neg (by omega)]
    next =>
      split
      next hincrement => rw [if_neg (by omega)]
      next => rfl

theorem digits_of_readVarIntLoop {max n : Nat} {s rest : Bytes} {m : Nat}
    (h : readVarIntLoop max n s = .ok (m, rest)) : ∃ a, VarIntDigits false a ∧ s = a ++ rest := by
  induction s generalizing n with
  | nil => cases h
  | cons b s ih =>
    rw [readVarIntLoop_cons] at h
    split at h
    · cases h
    · split at h
      next hmore =>
        split at h
        · cases h
        · obtain ⟨a, ha, rfl⟩ := ih h
          exact ⟨b :: a, .digit hmore ha, rfl⟩
      next hlast =>
        simp only [Except.ok.injEq, Prod.mk.injEq] at h
        obtain ⟨-, rfl⟩ := h
        exact ⟨[b], .last (by simp [hlast]), rfl⟩

theorem readVarInt_digits {a : Bytes} (h : VarIntDigits false a) {bits : Nat} (hbits : 7 ≤ bits)
    (rest : Bytes) :
    readVarInt bits (a ++ rest) =
      if varIntValue a < 2 ^ bits then .ok (varIntValue a, rest) else .error varIntTooLarge := by
  have hpos : 0 < 2 ^ bits := by positivity
  have hdvd : 128 ∣ 2 ^ bits := pow_dvd_pow 2 hbits
  have hle : varIntValue a ≤ 2 ^ bits - 1 ↔ varIntValue a < 2 ^ bits := by omega
  unfold readVarInt
  rw [readVarIntLoop_digits (by omega) h, zero_mul, zero_add]
  simp only [hle]

theorem reads_varInt {bits n : Nat} (hbits : 7 ≤ bits) (h : n < 2 ^ bits) :
    Reads (readVarInt bits) (writeVarInt bits n) n := by
  intro rest
  obtain ⟨a, ha, rfl⟩ := exists_varIntDigits n false
  rw [writeVarInt_digits ha (by omega) h, readVarInt_digits ha hbits, if_pos h]

example : writeVarInt 64 (2 ^ 32) = [0x8E, 0xFE, 0xFE, 0xFF, 0x00] := by decide

theorem length_writeVarInt {bits n : Nat} (hbits : 7 ≤ bits) (h : n < 2 ^ bits) :
    (writeVarInt bits n).length = getSizeOfVarInt n ∧ getSizeOfVarInt n ≤ (bits + 6) / 7 := by
  obtain ⟨a, ha, rfl⟩ := exists_varIntDigits n false
  rw [writeVarInt_digits ha (by omega) h, getSizeOfVarInt_digits ha]
  exact ⟨rfl, ha.length_le (by omega) h⟩

theorem readVarInt_sound {bits n : Nat} (hbits : 7 ≤ bits) {s rest : Bytes}
    (h : readVarInt bits s = .ok (n, rest)) : n < 2 ^ bits ∧ s = writeVarInt bits n ++ rest := by
  obtain ⟨a, ha, rfl⟩ := digits_of_readVarIntLoop h
  rw [readVarInt_digits ha hbits] at h
  split at h
  next hvalue =>
    simp only [Except.ok.injEq, Prod.mk.injEq, and_true] at h
    subst h
    exact ⟨hvalue, by rw [writeVarInt_digits ha (by omega) hvalue]⟩
  next => cases h

/-- The code is exact for every width: the value written is read back and the rest left alone,
the number of bytes is the one `GetSizeOfVarInt` gives and fits the buffer, what is read is the
encoding of the value returned, and digits whose number is above the maximum are refused. -/
theorem varInt_exact {bits : Nat} (hbits : 7 ≤ bits) :
    (∀ n < 2 ^ bits, (∀ r, readVarInt bits (writeVarInt bits n ++ r) = .ok (n, r)) ∧
      getSizeOfVarInt n = (writeVarInt bits n).length ∧ getSizeOfVarInt n ≤ (bits + 6) / 7) ∧
    (∀ s n r, readVarInt bits s = .ok (n, r) → n < 2 ^ bits ∧ s = writeVarInt bits n ++ r) ∧
    (∀ a r, VarIntDigits false a → 2 ^ bits ≤ varIntValue a →
      readVarInt bits (a ++ r) = .error varIntTooLarge) := by
  refine ⟨?_, ?_, ?_⟩
  · intro n hn
    obtain ⟨hlength, hbuffer⟩ := length_writeVarInt hbits hn
    exact ⟨reads_varInt hbits hn, hlength.symm, hbuffer⟩
  · intro s n r h
    exact readVarInt_sound hbits h
  · intro a r ha hlarge
    rw [readVarInt_digits ha hbits, if_neg (Nat.not_lt.mpr hlarge)]

theorem varInt_exact_widths :
    (readVarInt 32 (writeVarInt 32 (2 ^ 32 - 1) ++ [7]) = .ok (2 ^ 32 - 1, [7])) ∧
    (readVarInt 64 (writeVarInt 64 (2 ^ 64 - 1) ++ [7]) = .ok (2 ^ 64 - 1, [7])) ∧
    (readVarInt 32 ([0x8E, 0xFE, 0xFE, 0xFF, 0x00] ++ [7]) = .error varIntTooLarge) := by
  have h32 := @varInt_exact 32 (by norm_num)
  have h64 := @varInt_exact 64 (by norm_num)
  refine ⟨(h32.1 _ (by norm_num)).1 [7], (h64.1 _ (by norm_num)).1 [7], ?_⟩
  apply h32.2.2
  · exact .digit (by decide) (.digit (by decide) (.digit (by decide) (.digit (by decide)
      (.last (by decide)))))
  · decide

end Verium
