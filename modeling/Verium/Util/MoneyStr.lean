import Verium.Util.StrEncodings

/-!
Amounts of money as text, `util/moneystr.cpp`. The text of an amount is read back as the amount, and
whatever is read is a decimal number with at most eight digits after the point, taken exactly.
-/

namespace Verium

open Lib Lib.Decimal

def coin : Int := 100000000

/-- The character `.`. -/
def point : UInt8 := 0x2e

/-- The loop of `FormatMoney` that trims zeros, on the text backwards. It stops at the latest at the
second digit after the point, so that the text is never too short for it. -/
def trimZeros : Bytes → Bytes
  | c :: c1 :: c2 :: rest =>
      if c = zero ∧ isDigit c2 then trimZeros (c1 :: c2 :: rest) else c :: c1 :: c2 :: rest
  | str => str

def formatMoney (n : Int) : Bytes :=
  let nAbs := if 0 < n then n else -n
  let quotient := nAbs / coin
  let remainder := nAbs % coin
  -- strprintf("%d.%08d", quotient, remainder)
  let str := ofNat quotient.toNat ++ point :: padded 8 remainder.toNat
  let str := (trimZeros str.reverse).reverse
  if n < 0 then 0x2d :: str else str

/-- The loop of `ParseMoney` over the digits after the point. -/
def readUnits : (p : Bytes) → (nMult nUnits : Int) → Int × Bytes
  | [], _, nUnits => (nUnits, [])
  | c :: p, nMult, nUnits =>
      if isDigit c ∧ 0 < nMult then readUnits p (nMult / 10) (nUnits + nMult * digit c)
      else (nUnits, c :: p)

/-- The loop of `ParseMoney` over the digits before the point: the digits, the units after the
point, and what is left. -/
def readWhole : (p : Bytes) → (strWhole : Bytes) → Option (Bytes × Int × Bytes)
  | [], strWhole => some (strWhole, 0, [])
  | c :: p, strWhole =>
      if c = point then
        let (nUnits, p) := readUnits p (coin / 10) 0
        some (strWhole, nUnits, p)
      else if isSpace c then some (strWhole, 0, c :: p)
      else if ¬ isDigit c then none
      else readWhole p (strWhole ++ [c])

/-- `ParseMoney(const char*, ..)`, on a C string. -/
def parseMoneyChars (pszIn : Bytes) : Option Int := do
  let p := pszIn.dropWhile isSpace
  let (strWhole, nUnits, p) ← readWhole p []
  if ¬ p.all isSpace then none
  -- guard against 63 bit overflow
  else if 10 < strWhole.length then none
  else if nUnits < 0 ∨ coin < nUnits then none
  else
    let nWhole := atoi64 strWhole
    return nWhole * coin + nUnits

def parseMoney (str : Bytes) : Option Int :=
  parseMoneyChars (cString str)

/-- The multiplier before the digit with `m` places left. -/
def unitsMult (m : Nat) : Int :=
  10 ^ m / 10

theorem unitsMult_succ (m : Nat) : unitsMult (m + 1) = 10 ^ m := by
  rw [unitsMult, pow_succ, Int.mul_ediv_cancel _ (by decide)]

/-- At most `m` digits are read, each at its place. -/
theorem readUnits_eq (p : Bytes) (m : Nat) (nUnits : Int) :
    ∃ ds rest, p = ds ++ rest ∧ AllDigits ds ∧ ds.length ≤ m ∧
      (ds.length < m → ∀ c ∈ rest.head?, isDigit c = false) ∧
      readUnits p (unitsMult m) nUnits =
        (nUnits + value ds * 10 ^ (m - ds.length), rest) := by
  induction p generalizing m nUnits with
  | nil => exact ⟨[], [], rfl, allDigits_nil, Nat.zero_le m, by simp, by simp [readUnits]⟩
  | cons c p ih =>
    unfold readUnits
    split
    next hgo =>
      obtain ⟨m, rfl⟩ : ∃ k, m = k + 1 := by
        cases m with
        | zero => exact absurd hgo.2 (by decide)
        | succ k => exact ⟨k, rfl⟩
      rw [show unitsMult (m + 1) / 10 = unitsMult m by rw [unitsMult_succ, unitsMult]]
      obtain ⟨ds, rest, rfl, hds, hlen, hstop, heq⟩ :=
        ih m (nUnits + unitsMult (m + 1) * digit c)
      refine ⟨c :: ds, rest, rfl, allDigits_cons.mpr ⟨hgo.1, hds⟩, ?_, ?_, ?_⟩
      · simpa using hlen
      · intro h
        exact hstop (by simpa using h)
      · rw [heq, unitsMult_succ, value_cons, List.length_cons]
        have hpow : (10 : Int) ^ m = 10 ^ ds.length * 10 ^ (m - ds.length) := by
          rw [← pow_add, Nat.add_sub_cancel' hlen]
        have hsub : m + 1 - (ds.length + 1) = m - ds.length := by omega
        rw [hsub, hpow]
        push_cast
        congr 1
        ring
    next hstop =>
      refine ⟨[], c :: p, rfl, allDigits_nil, Nat.zero_le m, fun hm c' hc' => ?_, by simp⟩
      obtain ⟨m, rfl⟩ : ∃ k, m = k + 1 := ⟨m - 1, by simp at hm; omega⟩
      obtain rfl : c = c' := by simpa using hc'
      rw [unitsMult_succ] at hstop
      exact Bool.eq_false_iff.mpr fun hc => hstop ⟨hc, by positivity⟩

theorem readUnits_digits {ds : Bytes} (hds : AllDigits ds) (hlen : ds.length ≤ 8) :
    readUnits ds (coin / 10) 0 = ((value ds : Int) * 10 ^ (8 - ds.length), []) := by
  obtain ⟨read, rest, rfl, -, hread, hstop, heq⟩ := readUnits_eq ds 8 0
  obtain ⟨-, hrest⟩ := allDigits_append.mp hds
  obtain rfl : rest = [] := by
    cases rest with
    | nil => rfl
    | cons c rest =>
      simp only [List.length_append, List.length_cons] at hlen
      have hc : isDigit c = false := hstop (by omega) c rfl
      exact absurd (hrest c List.mem_cons_self) (by simpa [isDigit] using hc)
  have hmult : coin / 10 = unitsMult 8 := by decide
  rw [hmult, heq]
  simp

/-- The text of an amount that is not negative: digits, perhaps a point and more digits, and white
space around them. -/
def IsMoneyText (str whole fraction : Bytes) : Prop :=
  AllDigits whole ∧ whole.length ≤ 10 ∧ AllDigits fraction ∧ fraction.length ≤ 8 ∧
    ∃ before after, AllSpaces before ∧ AllSpaces after ∧
      (str = before ++ (whole ++ after) ∧ fraction = [] ∨
        str = before ++ (whole ++ point :: (fraction ++ after)))

theorem readWhole_eq_some {p strWhole read rest : Bytes} {nUnits : Int}
    (h : readWhole p strWhole = some (read, nUnits, rest)) :
    ∃ whole fraction, AllDigits whole ∧ read = strWhole ++ whole ∧
      AllDigits fraction ∧ fraction.length ≤ 8 ∧
      nUnits = value fraction * 10 ^ (8 - fraction.length) ∧
      (p = whole ++ rest ∧ fraction = [] ∨ p = whole ++ point :: (fraction ++ rest)) := by
  induction p generalizing strWhole with
  | nil =>
    cases h
    exact ⟨[], [], allDigits_nil, by simp, allDigits_nil, by simp, by simp, by simp⟩
  | cons c p ih =>
    unfold readWhole at h
    split at h
    next hpoint =>
      obtain ⟨fraction, after, rfl, hfraction, hlen, -, heq⟩ := readUnits_eq p 8 0
      have hmult : coin / 10 = unitsMult 8 := by decide
      rw [hmult, heq] at h
      cases h
      exact ⟨[], fraction, allDigits_nil, by simp, hfraction, hlen, by simp,
        .inr (by simp [hpoint])⟩
    next =>
      split at h
      next =>
        cases h
        exact ⟨[], [], allDigits_nil, by simp, allDigits_nil, by simp, by simp,
          by simp⟩
      next =>
        split at h
        next => cases h
        next hdigit =>
          obtain ⟨whole, fraction, hwhole, hread, hfraction, hlen, hunits, hp⟩ := ih h
          refine ⟨c :: whole, fraction, ?_, by simpa using hread, hfraction, hlen, hunits, ?_⟩
          · exact allDigits_cons.mpr ⟨not_not.mp hdigit, hwhole⟩
          · exact hp.imp (fun hp => ⟨by simp [hp.1], hp.2⟩) fun hp => by simp [hp]

theorem readWhole_digits {strWhole whole fraction : Bytes} (hwhole : AllDigits whole)
    (hfraction : AllDigits fraction) (hlen : fraction.length ≤ 8) :
    readWhole (whole ++ point :: fraction) strWhole =
      some (strWhole ++ whole, (value fraction : Int) * 10 ^ (8 - fraction.length),
        []) := by
  induction whole generalizing strWhole with
  | nil =>
    rw [List.nil_append, readWhole, if_pos rfl, readUnits_digits hfraction hlen]
    simp
  | cons c whole ih =>
    obtain ⟨hc, hwhole⟩ := allDigits_cons.mp hwhole
    have hpoint : c ≠ point := by
      rintro rfl
      cases hc
    have hc : isDigit c = true := hc
    have hspace : isSpace c = false := not_isSpace_of_isDigit hc
    rw [List.cons_append, readWhole, if_neg hpoint, if_neg (by simp [hspace]),
      if_neg (not_not.mpr hc), ih hwhole]
    simp

/-- The number in the text. -/
def decimalValue (whole fraction : Bytes) : ℚ :=
  value whole + value fraction / 10 ^ fraction.length

theorem decimalValue_mul_coin {whole fraction : Bytes} (hlen : fraction.length ≤ 8) :
    decimalValue whole fraction * coin =
      ((value whole * coin +
        value fraction * 10 ^ (8 - fraction.length) : Int) : ℚ) := by
  have hpow : (10 : ℚ) ^ (8 - fraction.length) * 10 ^ fraction.length = 100000000 := by
    rw [← pow_add, Nat.sub_add_cancel hlen]
    norm_num
  have hne : (10 : ℚ) ^ fraction.length ≠ 0 := by positivity
  rw [decimalValue, coin]
  push_cast
  rw [← hpow]
  field_simp

/-- Trimming takes zeros off and leaves the two digits next to the point. -/
theorem trimZeros_eq (f w : Bytes) (hlen : 2 ≤ f.length) (hf : AllDigits f) :
    ∃ k kept, f = List.replicate k zero ++ kept ∧
      trimZeros (f ++ point :: w) = kept ++ point :: w := by
  induction f with
  | nil => simp at hlen
  | cons c f ih =>
    obtain ⟨-, hf⟩ := allDigits_cons.mp hf
    match f, hlen, hf, ih with
    | [c1], _, _, _ =>
      have hpoint : ¬ (c = zero ∧ isDigit point = true) := fun h => by cases h.2
      refine ⟨0, [c, c1], rfl, ?_⟩
      simp only [List.cons_append, List.nil_append]
      rw [trimZeros, if_neg hpoint]
    | c1 :: c2 :: rest, _, hf, ih =>
      by_cases hzero : c = zero
      · have hc2 : isDigit c2 = true := hf c2 (by simp)
        obtain ⟨k, kept, hkept, heq⟩ := ih (by simp) hf
        refine ⟨k + 1, kept, ?_, ?_⟩
        · rw [hkept, hzero, List.replicate_succ, List.cons_append]
        · simp only [List.cons_append] at heq ⊢
          rw [trimZeros, if_pos ⟨hzero, hc2⟩, heq]
      · refine ⟨0, c :: c1 :: c2 :: rest, rfl, ?_⟩
        simp only [List.cons_append]
        rw [trimZeros, if_neg fun h => hzero h.1]

/-- The text of an amount has the digits of the coins and those of the units, less some zeros at
the end. -/
theorem formatMoney_eq (n : Nat) :
    ∃ fraction k, padded 8 (n % 100000000) = fraction ++ List.replicate k zero ∧
      formatMoney n = ofNat (n / 100000000) ++ point :: fraction := by
  have habs : (if 0 < (n : Int) then (n : Int) else -n) = n := by
    split <;> omega
  have hquotient : ((n : Int) / coin).toNat = n / 100000000 := by
    rw [coin]
    omega
  have hremainder : ((n : Int) % coin).toNat = n % 100000000 := by
    rw [coin]
    omega
  have hdigits : AllDigits (padded 8 (n % 100000000)).reverse := fun c hc =>
    allDigits_padded c (List.mem_reverse.mp hc)
  obtain ⟨k, kept, hkept, heq⟩ := trimZeros_eq _ (ofNat (n / 100000000)).reverse
    (by simp) hdigits
  refine ⟨kept.reverse, k, ?_, ?_⟩
  · rw [← List.reverse_inj, hkept]
    simp
  · have hnonneg : ¬ (n : Int) < 0 := by omega
    simp only [formatMoney, habs, hquotient, hremainder, if_neg hnonneg]
    simp only [List.reverse_append, List.reverse_cons, List.append_assoc, List.singleton_append,
      heq]
    simp

theorem value_trimmed {fraction : Bytes} {width k r : Nat} (hr : r < 10 ^ width)
    (h : padded width r = fraction ++ List.replicate k zero) :
    fraction.length ≤ width ∧ value fraction * 10 ^ (width - fraction.length) = r := by
  have hlen := congrArg List.length h
  have hvalue := congrArg value h
  rw [length_padded, List.length_append, List.length_replicate] at hlen
  rw [value_padded_of_lt hr, value_append, value_replicate_zero,
    List.length_replicate, Nat.add_zero] at hvalue
  have hk : width - fraction.length = k := by omega
  exact ⟨by omega, by rw [hk, hvalue]⟩

theorem units_cast (ds : Bytes) (k : Nat) :
    (value ds : Int) * 10 ^ k = ((value ds * 10 ^ k : Nat) : Int) := by
  push_cast
  rfl

theorem parseMoneyChars_digits {whole fraction : Bytes} (hwhole : AllDigits whole)
    (hfraction : AllDigits fraction) (hlenWhole : whole.length ≤ 10) (hlen : fraction.length ≤ 8) :
    parseMoneyChars (whole ++ point :: fraction) =
      some (value whole * coin + value fraction * 10 ^ (8 - fraction.length)) := by
  have hspace : (whole ++ point :: fraction).dropWhile isSpace = whole ++ point :: fraction := by
    cases whole with
    | nil => rfl
    | cons c whole =>
      have hc := not_isSpace_of_isDigit (hwhole c List.mem_cons_self)
      rw [List.cons_append, List.dropWhile_cons_of_neg (by simp [hc])]
  have hunits : ¬ ((value fraction : Int) * 10 ^ (8 - fraction.length) < 0 ∨
      coin < value fraction * 10 ^ (8 - fraction.length)) := by
    have hlt := Nat.mul_le_mul_right (10 ^ (8 - fraction.length)) (value_lt hfraction).le
    rw [← pow_add, Nat.add_sub_cancel' hlen] at hlt
    rw [units_cast, coin]
    omega
  have hatoi := atoi64_digits hwhole (by omega)
  rw [parseMoneyChars, hspace, readWhole_digits hwhole hfraction hlen]
  simp only [Option.bind_eq_bind, Option.bind_some, List.nil_append, List.all_nil,
    not_true_eq_false, if_false, if_neg (not_lt.mpr hlenWhole), if_neg hunits, hatoi]
  rfl

theorem isMoneyText_of_parseMoneyChars {psz : Bytes} {n : Int} (h : parseMoneyChars psz = some n) :
    ∃ whole fraction, IsMoneyText psz whole fraction ∧
      (n : ℚ) = decimalValue whole fraction * coin := by
  unfold parseMoneyChars at h
  obtain ⟨⟨read, nUnits, after⟩, hread, h⟩ := Option.bind_eq_some_iff.mp h
  obtain ⟨whole, fraction, hwhole, hstr, hfraction, hlen, hunits, htext⟩ := readWhole_eq_some hread
  rw [List.nil_append] at hstr
  subst hstr
  dsimp only at h
  split at h
  next => cases h
  next hafter =>
    split at h
    next => cases h
    next hlenWhole =>
      split at h
      next => cases h
      next =>
        cases h
        rw [not_lt] at hlenWhole
        rw [not_not, List.all_eq_true] at hafter
        refine ⟨read, fraction, ⟨hwhole, hlenWhole, hfraction, hlen, psz.takeWhile isSpace, after,
          ?_, hafter, ?_⟩, ?_⟩
        · exact fun c hc => List.mem_takeWhile_imp hc
        · have hsplit : psz.takeWhile isSpace ++ psz.dropWhile isSpace = psz :=
            List.takeWhile_append_dropWhile
          exact htext.imp (fun h => ⟨by rw [← h.1, hsplit], h.2⟩) fun h => by rw [← h, hsplit]
        · rw [decimalValue_mul_coin hlen, atoi64_digits hwhole (by omega), hunits]

/-- Amounts survive the way through text, and what is read from text is what the text says. -/
theorem parseMoney_formatMoney :
    (∀ n : Int, 0 ≤ n → n < 10 ^ 18 → parseMoney (formatMoney n) = some n) ∧
    ∀ str n, parseMoney str = some n →
      ∃ whole fraction, IsMoneyText (cString str) whole fraction ∧
        (n : ℚ) = decimalValue whole fraction * coin := by
  refine ⟨fun n hn hlt => ?_, fun str n h => isMoneyText_of_parseMoneyChars h⟩
  obtain ⟨N, rfl⟩ := Int.eq_ofNat_of_zero_le hn
  obtain ⟨fraction, k, hpadded, hformat⟩ := formatMoney_eq N
  obtain ⟨hlen, hvalue⟩ := value_trimmed (Nat.mod_lt N (by decide)) hpadded
  have hwhole : AllDigits (ofNat (N / 100000000)) := allDigits_ofNat
  have hfraction : AllDigits fraction :=
    (allDigits_append.mp (hpadded ▸ allDigits_padded)).1
  have hquotient : N / 100000000 < 10 ^ 10 := by omega
  have hchars : ∀ c ∈ ofNat (N / 100000000) ++ point :: fraction, c ≠ 0 := by
    simp only [List.mem_append, List.mem_cons]
    rintro c (hc | rfl | hc)
    · exact ne_zero_of_isDigit (hwhole c hc)
    · decide
    · exact ne_zero_of_isDigit (hfraction c hc)
  rw [hformat, parseMoney, cString_eq hchars, parseMoneyChars_digits hwhole hfraction
    (length_ofNat_le (by decide) hquotient) hlen, value_ofNat]
  rw [units_cast, hvalue, coin, Option.some.injEq]
  push_cast
  omega

/-- One coin and twenty-five hundredths, and the same amount with white space around it. -/
theorem parseMoney_formatMoney_sample :
    parseMoney (formatMoney 125000000) = some 125000000 ∧
      ∃ whole fraction, IsMoneyText (cString [0x20, 0x31, 0x2e, 0x32, 0x35, 0x09]) whole fraction ∧
        ((125000000 : Int) : ℚ) = decimalValue whole fraction * coin :=
  ⟨parseMoney_formatMoney.1 125000000 (by decide) (by decide),
    parseMoney_formatMoney.2 [0x20, 0x31, 0x2e, 0x32, 0x35, 0x09] 125000000 (by decide)⟩

end Verium
