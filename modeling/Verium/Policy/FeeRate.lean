import Verium.Consensus.Validation
import Verium.Lib.Double
import Verium.Lib.Wrap
import Verium.Primitives.Serialize

/-!
Fee rates, `policy/feerate.cpp`. A rate made from a fee and a size charges whole kilobytes; with
the start fee one kilobyte more is charged, and the constructor takes one off the size.
-/

namespace Verium

open Lib

/-- `CFeeRate(nSatoshisPerK).GetFee(nBytes, addStartFee)`: whole kilobytes, and one more as
the start fee. `floor` makes the product one of doubles; its conversion back is undefined in the
source when the product does not fit, and wraps here. -/
def getFee (nSatoshisPerK : CAmount) (nBytes : Nat) (addStartFee : Bool) : CAmount :=
  let nFee := Int64.ofInt
    (toDouble (toDouble nSatoshisPerK.toInt * toDouble (nBytes / 1000 : Nat)))
  let nFee := if addStartFee then nFee + nSatoshisPerK else nFee
  if nFee = 0 ∧ nBytes ≠ 0 then
    if 0 < nSatoshisPerK then 1 else if nSatoshisPerK < 0 then -1 else nFee
  else nFee

structure CFeeRate where
  nSatoshisPerK : CAmount
  withStartFee : Bool := false
deriving DecidableEq, Repr

namespace CFeeRate

/-- The rate that the constructor computes for the size `nSize`. -/
def perKilobyte (nFeePaid nSize : Int64) (withStartFee : Bool) : CAmount :=
  if 0 < nSize then
    if withStartFee then
      let nSize := nSize - 1000
      if nSize ≤ 0 then 0 else nFeePaid * 1000 / nSize
    else nFeePaid * 1000 / nSize
  else 0

/-- `CFeeRate(nFeePaid, nBytes, withStartFee)`. -/
def new (nFeePaid : CAmount) (nBytes : Nat) (withStartFee : Bool) : Result CFeeRate := do
  assertThat (nBytes ≤ 2 ^ 63 - 1) "nBytes_ <= uint64_t(std::numeric_limits<int64_t>::max())"
  return ⟨perKilobyte nFeePaid (Int64.ofNat nBytes) withStartFee, withStartFee⟩

def getFee (rate : CFeeRate) (nBytes : Nat) (addStartFee : Bool) : Result CAmount := do
  assertThat (nBytes ≤ 2 ^ 63 - 1) "nBytes_ <= uint64_t(std::numeric_limits<int64_t>::max())"
  return Verium.getFee rate.nSatoshisPerK nBytes addStartFee

end CFeeRate

section Exact

/-- A fee that would be nothing is raised to one unit, or lowered to minus one. -/
def leastFee (nSatoshisPerK nFee : ℤ) (nBytes : Nat) : ℤ :=
  if nFee = 0 ∧ nBytes ≠ 0 then nSatoshisPerK.sign else nFee

/-- The fee before that, with the product in doubles. -/
def chargedFee (nSatoshisPerK : ℤ) (nBytes : Nat) (addStartFee : Bool) : ℤ :=
  toDouble (toDouble nSatoshisPerK * toDouble (nBytes / 1000 : Nat)) +
    if addStartFee then nSatoshisPerK else 0

/-- How many times the rate is charged. -/
def feeUnits (nBytes : Nat) (addStartFee : Bool) : Nat :=
  nBytes / 1000 + if addStartFee then 1 else 0

/-- The fee in exact arithmetic. -/
def exactFee (nSatoshisPerK : ℤ) (nBytes : Nat) (addStartFee : Bool) : ℤ :=
  leastFee nSatoshisPerK (nSatoshisPerK * feeUnits nBytes addStartFee) nBytes

/-- The factors and the product are exact as doubles, and the fee is a 64-bit number. -/
structure ProductsExact (nSatoshisPerK : CAmount) (nBytes : Nat) (addStartFee : Bool) : Prop where
  rate : toDouble nSatoshisPerK.toInt = nSatoshisPerK.toInt
  size : toDouble (nBytes / 1000 : Nat) = (nBytes / 1000 : Nat)
  product : toDouble (nSatoshisPerK.toInt * (nBytes / 1000 : Nat)) =
    nSatoshisPerK.toInt * (nBytes / 1000 : Nat)
  fits : Fits (nSatoshisPerK.toInt * feeUnits nBytes addStartFee)

theorem toInt_sign (a : Int64) :
    (if 0 < a then 1 else if a < 0 then -1 else 0 : Int64).toInt = a.toInt.sign := by
  simp only [Int64.lt_iff_toInt_lt, Int64.toInt_zero]
  rcases lt_trichotomy a.toInt 0 with h | h | h
  · rw [if_neg (by omega), if_pos h, Int.sign_eq_neg_one_of_neg h]
    rfl
  · rw [if_neg (by omega), if_neg (by omega), h]
    rfl
  · rw [if_pos h, Int.sign_eq_one_of_pos h]
    rfl

variable {nSatoshisPerK : CAmount} {nBytes : Nat} {addStartFee : Bool}

theorem toInt_getFee_eq (hfits : Fits (chargedFee nSatoshisPerK.toInt nBytes addStartFee)) :
    (getFee nSatoshisPerK nBytes addStartFee).toInt =
      leastFee nSatoshisPerK.toInt (chargedFee nSatoshisPerK.toInt nBytes addStartFee) nBytes := by
  have hfee : (if addStartFee then Int64.ofInt (toDouble (toDouble nSatoshisPerK.toInt *
        toDouble (nBytes / 1000 : Nat))) + nSatoshisPerK
      else Int64.ofInt (toDouble (toDouble nSatoshisPerK.toInt *
        toDouble (nBytes / 1000 : Nat)))).toInt =
      chargedFee nSatoshisPerK.toInt nBytes addStartFee := by
    rw [← wrap64_of_fits hfits.1 hfits.2, chargedFee]
    cases addStartFee with
    | false =>
      simp only [Bool.false_eq_true, if_false, add_zero]
      exact Int64.toInt_ofInt
    | true =>
      simp only [if_true]
      rw [toInt_add, Int64.toInt_ofInt]
      exact wrap64_wrap64_add _ _
  unfold getFee leastFee
  dsimp only
  rw [← hfee]
  generalize (if addStartFee then Int64.ofInt (toDouble (toDouble nSatoshisPerK.toInt *
        toDouble (nBytes / 1000 : Nat))) + nSatoshisPerK
      else Int64.ofInt (toDouble (toDouble nSatoshisPerK.toInt *
        toDouble (nBytes / 1000 : Nat)))) = nFee
  have hzero : nFee.toInt = 0 ↔ nFee = 0 := by
    rw [← Int64.toInt_zero, Int64.toInt_inj]
  rw [← toInt_sign]
  simp only [hzero]
  split
  next h => rw [h.1]
  next => rfl

theorem ProductsExact.chargedFee_eq (h : ProductsExact nSatoshisPerK nBytes addStartFee) :
    chargedFee nSatoshisPerK.toInt nBytes addStartFee =
      nSatoshisPerK.toInt * feeUnits nBytes addStartFee := by
  rw [chargedFee, h.rate, h.size, h.product, feeUnits]
  cases addStartFee <;> simp [mul_add]

theorem toInt_getFee_eq_exactFee (h : ProductsExact nSatoshisPerK nBytes addStartFee) :
    (getFee nSatoshisPerK nBytes addStartFee).toInt =
      exactFee nSatoshisPerK.toInt nBytes addStartFee := by
  rw [toInt_getFee_eq (h.chargedFee_eq ▸ h.fits), h.chargedFee_eq, exactFee]

end Exact

theorem leastFee_mono {r a b : ℤ} (hr : 0 ≤ r) (hab : a ≤ b) {m m' : Nat}
    (h : m ≤ m') : leastFee r a m ≤ leastFee r b m' := by
  have hsign : 0 ≤ r.sign ∧ r.sign ≤ 1 := by
    rcases hr.eq_or_lt with rfl | hpos
    · decide
    · simp [Int.sign_eq_one_of_pos hpos]
  unfold leastFee
  split
  next hzero =>
    split
    next => exact le_rfl
    next hne =>
      -- the least fee of a larger size is at least one
      have : b ≠ 0 := fun h0 => hne ⟨h0, by omega⟩
      omega
  next hne =>
    split
    next hzero' => omega
    next => exact hab

theorem chargedFee_mono {r : ℤ} (hr : 0 ≤ r) {m m' : Nat} (h : m ≤ m') (s : Bool) :
    0 ≤ chargedFee r m s ∧ chargedFee r m s ≤ chargedFee r m' s := by
  obtain ⟨n, rfl⟩ := Int.eq_ofNat_of_zero_le hr
  have hunits := toDouble_mono (Nat.div_le_div_right h : m / 1000 ≤ m' / 1000)
  unfold chargedFee
  rw [toDouble_natCast n, toDouble_natCast (m / 1000), toDouble_natCast (m' / 1000)] at *
  rw [Int.ofNat_le] at hunits
  rw [← Nat.cast_mul, ← Nat.cast_mul]
  have hproduct := toDouble_mono (Nat.mul_le_mul_left (roundEven (doubleUnit n) n) hunits)
  have hnonneg : ∀ k : Nat, 0 ≤ toDouble k := by
    intro k
    rw [toDouble_natCast]
    exact Int.natCast_nonneg _
  have hlow := hnonneg (roundEven (doubleUnit n) n *
    roundEven (doubleUnit (m / 1000)) (m / 1000))
  split <;> omega

theorem toInt_perKilobyte {f : CAmount} {n : Nat} {s : Bool} (hlow : -2 ^ 63 ≤ f.toInt * 1000)
    (hhigh : f.toInt * 1000 < 2 ^ 63) (hn : n < 2 ^ 63) :
    (CFeeRate.perKilobyte f (Int64.ofNat n) s).toInt =
      (f.toInt * 1000).tdiv (n - if s then 1000 else 0 : Nat) := by
  have hsize : (Int64.ofNat n).toInt = n := Int64.toInt_ofNat_of_lt hn
  have hpaid : (f * 1000).toInt = f.toInt * 1000 := by
    rw [Int64.toInt_mul]
    exact wrap64_of_fits hlow hhigh
  have hdiv : ∀ b : Int64, 0 < b.toInt → (f * 1000 / b).toInt = (f.toInt * 1000).tdiv b.toInt := by
    intro b hb
    have hne : b ≠ -1 := by
      rintro rfl
      exact absurd hb (by decide)
    rw [Int64.toInt_div_of_ne_right _ _ hne, hpaid]
  unfold CFeeRate.perKilobyte
  simp only [Int64.lt_iff_toInt_lt, Int64.le_iff_toInt_le, Int64.toInt_zero, hsize]
  cases s with
  | false =>
    simp only [Bool.false_eq_true, if_false, Nat.sub_zero]
    split
    next hpos => rw [hdiv _ (by rw [hsize]; exact hpos), hsize]
    next hzero =>
      obtain rfl : n = 0 := by omega
      rw [Nat.cast_zero, Int.tdiv_zero, Int64.toInt_zero]
  | true =>
    have hthousand : (Int64.ofNat n - 1000).toInt = n - 1000 := by
      rw [toInt_sub_nonneg (by omega) (by decide), hsize]
      rfl
    simp only [if_true, hthousand]
    split
    next hpos =>
      split
      next hsmall =>
        rw [Nat.sub_eq_zero_of_le (by omega), Nat.cast_zero, Int.tdiv_zero, Int64.toInt_zero]
      next hlarge =>
        rw [hdiv _ (by omega), hthousand, Nat.cast_sub (by omega)]
        rfl
    next hzero =>
      obtain rfl : n = 0 := by omega
      rw [Nat.zero_sub, Nat.cast_zero, Int.tdiv_zero, Int64.toInt_zero]

theorem CFeeRate.new_eq_ok {f : CAmount} {n : Nat} {s : Bool} {rate : CFeeRate}
    (h : CFeeRate.new f n s = .ok rate) :
    n < 2 ^ 63 ∧ rate = ⟨perKilobyte f (Int64.ofNat n) s, s⟩ := by
  simp only [CFeeRate.new, bind_eq_ok, assertThat_eq_ok] at h
  obtain ⟨-, hsize, h⟩ := h
  exact ⟨by omega, (Except.ok.inj h).symm⟩

theorem CFeeRate.getFee_of_lt (rate : CFeeRate) {n : Nat} (hn : n < 2 ^ 63) (s : Bool) :
    rate.getFee n s = .ok (Verium.getFee rate.nSatoshisPerK n s) := by
  unfold CFeeRate.getFee
  rw [assertThat_of (by omega)]
  rfl

theorem CFeeRate.getFee_mono {rate : CFeeRate} (hrate : 0 ≤ rate.nSatoshisPerK) {m m' : Nat}
    (h : m ≤ m') (hsize : m' < 2 ^ 63) {s : Bool} (hexact : ProductsExact rate.nSatoshisPerK m' s) :
    ∃ fee fee', rate.getFee m s = .ok fee ∧ rate.getFee m' s = .ok fee' ∧ fee ≤ fee' := by
  rw [Int64.le_iff_toInt_le, Int64.toInt_zero] at hrate
  obtain ⟨hnonneg, hle⟩ := chargedFee_mono hrate h s
  have hfits' : Fits (chargedFee rate.nSatoshisPerK.toInt m' s) :=
    hexact.chargedFee_eq ▸ hexact.fits
  have hfits : Fits (chargedFee rate.nSatoshisPerK.toInt m s) :=
    ⟨by omega, hle.trans_lt hfits'.2⟩
  refine ⟨_, _, rate.getFee_of_lt (by omega) s, rate.getFee_of_lt hsize s, ?_⟩
  rw [Int64.le_iff_toInt_le, toInt_getFee_eq hfits, toInt_getFee_eq hfits']
  exact leastFee_mono hrate hle h

/-- Without the start fee a whole number of kilobytes is charged for no more than the size. -/
theorem exactFee_le {f : ℤ} (hf : 1 ≤ f) {n : Nat} (hn : 1 ≤ n) :
    exactFee (f * 1000 / n) n false ≤ f := by
  have hr : 0 ≤ f * 1000 / n := Int.ediv_nonneg (by omega) (by omega)
  have hsign : (f * 1000 / n).sign ≤ 1 := by
    rcases hr.eq_or_lt with hzero | hpos
    · simp [← hzero]
    · simp [Int.sign_eq_one_of_pos hpos]
  have hunits : f * 1000 / n * (n / 1000 : Nat) * 1000 ≤ f * 1000 :=
    calc
      f * 1000 / n * (n / 1000 : Nat) * 1000 = f * 1000 / n * (n / 1000 * 1000 : Nat) := by
        push_cast
        ring
      _ ≤ f * 1000 / n * n :=
        mul_le_mul_of_nonneg_left (by exact_mod_cast Nat.div_mul_le_self n 1000) hr
      _ ≤ f * 1000 := Int.ediv_mul_le _ (by omega)
  unfold exactFee leastFee feeUnits
  simp only [Bool.false_eq_true, if_false, Nat.add_zero]
  split
  · exact hsign.trans hf
  · omega

theorem exactFee_startFee (r : ℤ) (n : Nat) : exactFee r n true = r * (n / 1000 + 1 : Nat) := by
  unfold exactFee leastFee feeUnits
  simp only [if_true]
  split
  next hzero =>
    have hr : r = 0 := by
      rcases mul_eq_zero.mp hzero.1 with h | h
      · exact h
      · omega
    simp [hr]
  next => rfl

/-- The fee of `k` units at the rate `a / b` is at most `f`. -/
theorem ediv_mul_le_iff {a b f k : ℤ} (hb : 0 < b) (hk : 0 < k) :
    a / b * k ≤ f ↔ a < (f / k + 1) * b := by
  rw [← Int.le_ediv_iff_mul_le hk, ← Int.lt_add_one_iff, Int.ediv_lt_iff_lt_mul hb]

/-- With the start fee the constructor divides by a size that is two kilobytes short of what
`GetFee` charges for. The condition says that the rate is at most the `n / 1000 + 1`-th part of
the fee. -/
theorem feeRate_charges_iff {f : CAmount} {n : Nat} {s : Bool} {rate : CFeeRate}
    (hf : 1 ≤ f) (hn : 1 ≤ n) (hproduct : f.toInt * 1000 < 2 ^ 63)
    (hrate : CFeeRate.new f n s = .ok rate) (hexact : ProductsExact rate.nSatoshisPerK n s) :
    ((∃ fee, rate.getFee n s = .ok fee ∧ fee ≤ f) ∧
      ∀ r : CFeeRate, ∀ m m', 0 ≤ r.nSatoshisPerK → m ≤ m' → m' < 2 ^ 63 →
        ProductsExact r.nSatoshisPerK m' s →
        ∃ fee fee', r.getFee m s = .ok fee ∧ r.getFee m' s = .ok fee' ∧ fee ≤ fee') ↔
      s = false ∨ n ≤ 1000 ∨
        1000 * f.toInt < (f.toInt / (n / 1000 + 1 : Nat) + 1) * (n - 1000 : Nat) := by
  obtain ⟨hbytes, rfl⟩ := CFeeRate.new_eq_ok hrate
  rw [Int64.le_iff_toInt_le] at hf
  change 1 ≤ f.toInt at hf
  have hcharged : ((∃ fee, CFeeRate.getFee ⟨CFeeRate.perKilobyte f (Int64.ofNat n) s, s⟩ n s =
      .ok fee ∧ fee ≤ f)) ↔
      exactFee (f.toInt * 1000 / (n - if s then 1000 else 0 : Nat)) n s ≤ f.toInt := by
    rw [CFeeRate.getFee_of_lt _ hbytes, ← Int.tdiv_eq_ediv_of_nonneg (by omega),
      ← toInt_perKilobyte (by omega) hproduct hbytes, ← toInt_getFee_eq_exactFee hexact]
    simp [Int64.le_iff_toInt_le]
  have hmono : ∀ r : CFeeRate, ∀ m m', 0 ≤ r.nSatoshisPerK → m ≤ m' → m' < 2 ^ 63 →
      ProductsExact r.nSatoshisPerK m' s →
      ∃ fee fee', r.getFee m s = .ok fee ∧ r.getFee m' s = .ok fee' ∧ fee ≤ fee' :=
    fun r m m' hr h hsize hexact => CFeeRate.getFee_mono hr h hsize hexact
  rw [hcharged, and_iff_left hmono]
  cases s with
  | false =>
    simp only [Bool.false_eq_true, if_false, Nat.sub_zero, true_or, iff_true]
    exact exactFee_le hf hn
  | true =>
    simp only [if_true, exactFee_startFee, Bool.true_eq_false, false_or]
    rcases Nat.lt_or_ge 1000 n with hlarge | hsmall
    · rw [ediv_mul_le_iff (by omega) (by omega), mul_comm f.toInt]
      simp only [Nat.not_le.mpr hlarge, false_or]
    · simp only [Nat.sub_eq_zero_of_le hsmall, hsmall, true_or, iff_true, Nat.cast_zero,
        Int.ediv_zero, zero_mul]
      omega

theorem plainRate_charges :
    ∃ rate fee, CFeeRate.new 30000 2500 false = .ok rate ∧ rate.getFee 2500 false = .ok fee ∧
      fee ≤ 30000 := by
  obtain ⟨⟨fee, hfee, hle⟩, -⟩ := (@feeRate_charges_iff 30000 2500 false
    ⟨12000, false⟩ (by decide) (by decide) (by decide) (by decide)
    ⟨by decide, by decide, by decide, by decide⟩).mpr (.inl rfl)
  exact ⟨_, fee, by decide, hfee, hle⟩

/-- One byte above the kilobyte that the constructor takes off, the fee is two thousand times the
fee paid. -/
theorem startFeeRate_overcharges :
    ∃ rate, CFeeRate.new 1 1001 true = .ok rate ∧ ProductsExact rate.nSatoshisPerK 1001 true ∧
      rate.getFee 1001 true = .ok 2000 :=
  ⟨⟨1000, true⟩, by decide, ⟨by decide, by decide, by decide, by decide⟩, by decide⟩

end Verium
