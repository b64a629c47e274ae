import Mathlib.Data.List.TakeWhile
import Verium.Lib.Decimal
import Verium.Primitives.Serialize

/-!
Characters, C strings and the conversion of digits, `util/strencodings.h`. A string is a list of
bytes; a C string ends at its first zero byte, so it is a list without one and reading at its end
gives zero.
-/

namespace Verium

open Lib

/-- The C string that starts a byte string, as `c_str()` gives it. -/
def cString (str : Bytes) : Bytes :=
  str.takeWhile (· ≠ 0)

def isDigit (c : UInt8) : Bool :=
  Decimal.isDigit c

/-- Space, form feed, newline, carriage return, horizontal and vertical tab. -/
def isSpace (c : UInt8) : Bool :=
  c = 0x20 || c = 0x0c || c = 0x0a || c = 0x0d || c = 0x09 || c = 0x0b

/-- Only white space. -/
def AllSpaces (str : Bytes) : Prop :=
  ∀ c ∈ str, isSpace c = true

def int64Max : Int := 2 ^ 63 - 1
def int64Min : Int := -2 ^ 63

/-- The sign in front of a number, if there is one. -/
def takeSign : Bytes → Bool × Bytes
  | 0x2d :: rest => (true, rest)
  | 0x2b :: rest => (false, rest)
  | psz => (false, psz)

/-- `strtoll` in base ten: white space, a sign and digits are read as far as they go, and a number
out of range is replaced by the nearest one. -/
def strtoll (psz : Bytes) : Int :=
  let (negative, psz) := takeSign (psz.dropWhile isSpace)
  let magnitude : Int := Decimal.value (psz.takeWhile isDigit)
  if negative then max int64Min (-magnitude) else min int64Max magnitude

def atoi64 (str : Bytes) : Int :=
  strtoll (cString str)

section Chars

variable {c : UInt8} {str ds rest : Bytes}

theorem not_isSpace_of_isDigit (h : isDigit c = true) : isSpace c = false := by
  have hrange := Decimal.isDigit_iff.mp h
  simp only [isSpace, Bool.or_eq_false_iff, decide_eq_false_iff_not, ← UInt8.toNat_inj,
    UInt8.reduceToNat]
  omega

theorem ne_zero_of_isDigit (h : isDigit c = true) : c ≠ 0 := by
  rintro rfl
  cases h

theorem cString_eq (h : ∀ c ∈ str, c ≠ 0) : cString str = str := by
  rw [cString, List.takeWhile_eq_self_iff]
  simpa using h

/-- A string that starts with a digit has no white space and no sign in front. -/
theorem strtoll_digit_cons (hc : isDigit c = true) :
    strtoll (c :: rest) = min int64Max (Decimal.value ((c :: rest).takeWhile isDigit)) := by
  have hspace : (c :: rest).dropWhile isSpace = c :: rest := by
    rw [List.dropWhile_cons_of_neg (by simp [not_isSpace_of_isDigit hc])]
  have hsign : takeSign (c :: rest) = (false, c :: rest) := by
    unfold takeSign
    split
    next h =>
      obtain rfl := (List.cons.inj h).1
      cases hc
    next h =>
      obtain rfl := (List.cons.inj h).1
      cases hc
    next => rfl
  rw [strtoll, hspace, hsign]
  rfl

theorem atoi64_digits (hds : Decimal.AllDigits ds) (hlen : ds.length ≤ 18) :
    atoi64 ds = Decimal.value ds := by
  rw [atoi64, cString_eq fun c hc => ne_zero_of_isDigit (hds c hc)]
  cases ds with
  | nil => rfl
  | cons c ds =>
    have hall : (c :: ds).takeWhile isDigit = c :: ds := List.takeWhile_eq_self_iff.mpr hds
    rw [strtoll_digit_cons (hds c List.mem_cons_self), hall]
    have hlt := Decimal.value_lt hds
    have hpow : 10 ^ (c :: ds).length ≤ 10 ^ 18 := Nat.pow_le_pow_right (by decide) hlen
    simp only [int64Max]
    omega

end Chars

end Verium
