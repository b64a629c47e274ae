import Mathlib.Data.List.TakeWhile
import Verium.Consensus.Values

/-!
The signed additions that the loops over a transaction's outputs perform. `MAX_MONEY` is the
largest 64-bit number, so a sum that leaves the money range has already overflowed when the range
is tested.
-/

namespace Verium

open Lib

/-- The operands of the additions `nValueOut += txout.nValue` of a loop with the rounds `round`,
which gets to the addition for the outputs that satisfy `adds`. -/
def outputAdditions (adds : CTxOut → Bool) (round : CAmount → CTxOut → Result CAmount) :
    (nValueOut : CAmount) → (vout : List CTxOut) → List (CAmount × CAmount)
  | _, [] => []
  | nValueOut, txout :: rest =>
      let later :=
        match round nValueOut txout with
        | .ok nValueOut => outputAdditions adds round nValueOut rest
        | .error _ => []
      if adds txout then (nValueOut, txout.nValue) :: later else later

/-- The additions of `CheckTransaction`, which first tests the single values. -/
def checkTransactionAdditions (tx : CTransaction) : List (CAmount × CAmount) :=
  if tx.vin = [] ∨ tx.vout = [] ∨ maxBlockWeight < tx.getTotalSize * witnessScaleFactor then []
  else
    outputAdditions (fun txout => ¬ txout.nValue < 0 ∧ ¬ maxMoney < txout.nValue) checkTxOut 0
      tx.vout

/-- The additions of `GetValueOut`, which adds first. -/
def getValueOutAdditions (tx : CTransaction) : List (CAmount × CAmount) :=
  outputAdditions (fun _ => true) CTransaction.addValueOut 0 tx.vout

/-- The exact sum is a 64-bit number. -/
def AddsExactly (operands : CAmount × CAmount) : Prop :=
  -2 ^ 63 ≤ operands.1.toInt + operands.2.toInt ∧ operands.1.toInt + operands.2.toInt < 2 ^ 63

/-- The outputs before the first negative one. -/
def leadingOutputs (vout : List CTxOut) : List CTxOut :=
  vout.takeWhile fun txout => 0 ≤ txout.nValue.toInt

theorem leadingOutputs_nonneg (vout : List CTxOut) : 0 ≤ outputSum (leadingOutputs vout) := by
  apply outputSum_nonneg
  intro txout hmem
  simpa using List.mem_takeWhile_imp hmem

section Loop

variable {adds : CTxOut → Bool} {round : CAmount → CTxOut → Result CAmount}

/-- A loop that adds every value that is not negative overflows exactly where the values before
the first negative one have a sum that is no 64-bit number. -/
theorem outputAdditions_exact (hadds : ∀ txout, 0 ≤ txout.nValue.toInt → adds txout = true)
    (hround : ∀ acc txout sum, round acc txout = .ok sum ↔
      moneyRange txout.nValue = true ∧ moneyRange (acc + txout.nValue) = true ∧
        sum = acc + txout.nValue) (vout : List CTxOut) (acc : CAmount) (hacc : 0 ≤ acc.toInt) :
    (∀ operands ∈ outputAdditions adds round acc vout, AddsExactly operands) ↔
      acc.toInt + outputSum (leadingOutputs vout) < 2 ^ 63 := by
  induction vout generalizing acc with
  | nil =>
    have hlt := acc.toInt_lt
    simpa [outputAdditions, leadingOutputs, outputSum] using hlt
  | cons txout rest ih =>
    rcases lt_or_ge txout.nValue.toInt 0 with hneg | hvalue
    · -- the loop ends here, and a negative number cannot take the sum out of the range
      have hlead : leadingOutputs (txout :: rest) = [] :=
        List.takeWhile_cons_of_neg (by simpa using hneg)
      have hround' : ∀ sum, round acc txout ≠ .ok sum := by
        intro sum h
        have := moneyRange_iff.mp ((hround acc txout sum).mp h).1
        omega
      have hlater : outputAdditions adds round acc (txout :: rest) =
          if adds txout then [(acc, txout.nValue)] else [] := by
        rw [outputAdditions]
        cases h : round acc txout with
        | ok sum => exact absurd h (hround' sum)
        | error e => rfl
      have hlow := txout.nValue.le_toInt
      have hlt := acc.toInt_lt
      have hexact : AddsExactly (acc, txout.nValue) := ⟨by dsimp only; omega, by dsimp only; omega⟩
      rw [hlater, hlead]
      simp only [outputSum, List.map_nil, List.sum_nil, add_zero, hlt, iff_true]
      split <;> simp [hexact]
    · have hlead : leadingOutputs (txout :: rest) = txout :: leadingOutputs rest :=
        List.takeWhile_cons_of_pos (by simpa using hvalue)
      have hrest := leadingOutputs_nonneg rest
      rw [hlead, outputSum_cons, outputAdditions]
      simp only [hadds txout hvalue, if_true, List.forall_mem_cons]
      rcases toInt_add_nonneg hacc hvalue with ⟨hadd, hfits⟩ | ⟨-, hbig⟩
      · have hok : round acc txout = .ok (acc + txout.nValue) :=
          (hround _ _ _).mpr ⟨moneyRange_iff.mpr hvalue, moneyRange_iff.mpr (by omega), rfl⟩
        have hexact : AddsExactly (acc, txout.nValue) :=
          ⟨by dsimp only; omega, by dsimp only; omega⟩
        rw [hok]
        simp only [hexact, true_and]
        rw [ih _ (by omega), hadd, add_assoc]
      · constructor
        · rintro ⟨⟨-, hlt⟩, -⟩
          dsimp only at hlt
          omega
        · omega

end Loop

theorem le_maxMoney_iff (x : ℤ) : x ≤ maxMoney.toInt ↔ x < 2 ^ 63 := by
  rw [maxMoney, Int64.toInt_maxValue]
  omega

theorem getValueOutAdditions_exact (tx : CTransaction) :
    (∀ operands ∈ getValueOutAdditions tx, AddsExactly operands) ↔
      outputSum (leadingOutputs tx.vout) ≤ maxMoney.toInt := by
  rw [getValueOutAdditions, outputAdditions_exact (fun _ _ => rfl) addValueOut_eq_ok _ _
    (by decide), Int64.toInt_zero, zero_add, le_maxMoney_iff]

theorem checkTransactionAdditions_exact {tx : CTransaction}
    (h : outputSum (leadingOutputs tx.vout) ≤ maxMoney.toInt) :
    ∀ operands ∈ checkTransactionAdditions tx, AddsExactly operands := by
  have hadds : ∀ txout : CTxOut, 0 ≤ txout.nValue.toInt →
      decide (¬ txout.nValue < 0 ∧ ¬ maxMoney < txout.nValue) = true := by
    intro txout hvalue
    have hlt := txout.nValue.toInt_lt
    simp only [decide_eq_true_eq, Int64.lt_iff_toInt_lt, Int64.toInt_zero, maxMoney,
      Int64.toInt_maxValue]
    omega
  unfold checkTransactionAdditions
  split
  · simp
  · rw [outputAdditions_exact hadds checkTxOut_eq_ok _ _ (by decide), Int64.toInt_zero, zero_add]
    exact (le_maxMoney_iff _).mp h

/-- The value checks see the exact sum: one that has overflowed is negative. -/
theorem valueChecks_iff (vout : List CTxOut) :
    (∃ sum, vout.foldlM checkTxOut 0 = .ok sum) ↔
      (∀ txout ∈ vout, 0 ≤ txout.nValue) ∧ outputSum vout ≤ maxMoney.toInt := by
  simp only [foldlM_outputs checkTxOut_eq_ok _ _ _ (show 0 ≤ (0 : CAmount).toInt by decide),
    Int64.toInt_zero, zero_add, le_maxMoney_iff, Int64.le_iff_toInt_le]
  constructor
  · rintro ⟨sum, hnonneg, hlt, -⟩
    exact ⟨hnonneg, hlt⟩
  · rintro ⟨hnonneg, hlt⟩
    have hsum := outputSum_nonneg hnonneg
    exact ⟨Int64.ofInt (outputSum vout), hnonneg, hlt, Int64.toInt_ofInt_of_le (by omega) hlt⟩

/-- The additions of both functions are exact, and the value checks of `CheckTransaction` pass
what they should, exactly where the outputs before the first negative one have a sum in the money
range. -/
theorem outputs_addedExactly_iff (tx : CTransaction) :
    ((∀ operands ∈ checkTransactionAdditions tx, AddsExactly operands) ∧
      (∀ operands ∈ getValueOutAdditions tx, AddsExactly operands) ∧
      ((∃ sum, tx.vout.foldlM checkTxOut 0 = .ok sum) ↔
        (∀ txout ∈ tx.vout, 0 ≤ txout.nValue) ∧ outputSum tx.vout ≤ maxMoney.toInt)) ↔
      outputSum (leadingOutputs tx.vout) ≤ maxMoney.toInt := by
  constructor
  · rintro ⟨-, hget, -⟩
    exact (getValueOutAdditions_exact tx).mp hget
  · intro hsum
    exact ⟨checkTransactionAdditions_exact hsum, (getValueOutAdditions_exact tx).mpr hsum,
      valueChecks_iff tx.vout⟩

/-- Both functions add one to the largest amount. -/
theorem overflowingOutputs_added :
    ∃ tx : CTransaction, (maxMoney, 1) ∈ checkTransactionAdditions tx ∧
      (maxMoney, 1) ∈ getValueOutAdditions tx ∧ ¬ AddsExactly (maxMoney, 1) := by
  refine ⟨⟨1, 0, [⟨⟨1, 0⟩, [], 0, []⟩], [⟨maxMoney, []⟩, ⟨1, []⟩], 0⟩, by decide, by decide, ?_⟩
  rintro ⟨-, hlt⟩
  exact absurd hlt (by decide)

end Verium
