import Verium.Coins.Utxo
import Verium.Consensus.TxVerify
import Verium.Lib.Wrap

/-!
The value sums of validation in exact arithmetic, and what the checks on a transaction's
outputs and inputs guarantee about them.
-/

namespace Verium

open Lib CCoinsViewCache

theorem moneyRange_iff {a : CAmount} : moneyRange a = true ↔ 0 ≤ a.toInt := by
  have hmax := Int64.toInt_lt a
  simp only [moneyRange, maxMoney, Bool.and_eq_true, decide_eq_true_eq,
    Int64.le_iff_toInt_le, Int64.toInt_maxValue, Int64.toInt_zero]
  omega

/-- The exact sum of the output values. -/
def outputSum (vout : List CTxOut) : ℤ :=
  (vout.map fun txout => txout.nValue.toInt).sum

/-- Every output value is an amount and so is their exact sum. -/
structure OutputsInRange (vout : List CTxOut) : Prop where
  nonneg : ∀ txout ∈ vout, 0 ≤ txout.nValue.toInt
  sum_lt : outputSum vout < 2 ^ 63

@[simp]
theorem outputSum_cons (txout : CTxOut) (vout : List CTxOut) :
    outputSum (txout :: vout) = txout.nValue.toInt + outputSum vout := by
  simp [outputSum]

theorem outputSum_nonneg {vout : List CTxOut}
    (h : ∀ txout ∈ vout, 0 ≤ txout.nValue.toInt) : 0 ≤ outputSum vout := by
  apply List.sum_nonneg
  intro x hx
  obtain ⟨txout, hmem, rfl⟩ := List.mem_map.mp hx
  exact h txout hmem

/-- The shape shared by the output loops of `CheckTransaction` and `GetValueOut`: a running
sum that stops where a value or the sum leaves the range. -/
theorem foldlM_outputs {f : CAmount → CTxOut → Result CAmount}
    (hf : ∀ acc txout sum, f acc txout = .ok sum ↔
      moneyRange txout.nValue = true ∧ moneyRange (acc + txout.nValue) = true ∧
        sum = acc + txout.nValue) (vout : List CTxOut) (acc sum : CAmount) (hacc : 0 ≤ acc.toInt) :
    vout.foldlM f acc = .ok sum ↔
      (∀ txout ∈ vout, 0 ≤ txout.nValue.toInt) ∧ acc.toInt + outputSum vout < 2 ^ 63 ∧
        sum.toInt = acc.toInt + outputSum vout := by
  induction vout generalizing acc with
  | nil =>
      have hlt := acc.toInt_lt
      simp only [foldlM_nil_eq_ok, outputSum, List.map_nil, List.sum_nil, add_zero,
        List.not_mem_nil, false_implies, implies_true, true_and, hlt]
      rw [eq_comm, Int64.toInt_inj]
  | cons txout rest ih =>
      rw [foldlM_cons_eq_ok]
      simp only [hf, moneyRange_iff, List.forall_mem_cons, outputSum_cons]
      constructor
      · rintro ⟨_, ⟨hvalue, hsum, rfl⟩, hrest⟩
        obtain ⟨hnonneg, hlt, heq⟩ := (ih _ hsum).mp hrest
        rcases toInt_add_nonneg hacc hvalue with ⟨hadd, -⟩ | ⟨hneg, -⟩
        · rw [hadd] at hlt heq
          exact ⟨⟨hvalue, hnonneg⟩, by omega, by omega⟩
        · omega
      · rintro ⟨⟨hvalue, hnonneg⟩, hlt, heq⟩
        have hrest := outputSum_nonneg hnonneg
        rcases toInt_add_nonneg hacc hvalue with ⟨hadd, -⟩ | ⟨-, hbig⟩
        · refine ⟨_, ⟨hvalue, by omega, rfl⟩, (ih _ (by omega)).mpr ⟨hnonneg, ?_, ?_⟩⟩
          · omega
          · omega
        · omega

theorem addValueOut_eq_ok (acc : CAmount) (txout : CTxOut) (sum : CAmount) :
    CTransaction.addValueOut acc txout = .ok sum ↔
      moneyRange txout.nValue = true ∧ moneyRange (acc + txout.nValue) = true ∧
        sum = acc + txout.nValue := by
  simp only [CTransaction.addValueOut, bind_eq_ok, rejectIf_eq_ok, not_or, not_not]
  constructor
  · rintro ⟨-, ⟨hvalue, hsum⟩, heq⟩
    cases heq
    exact ⟨hvalue, hsum, rfl⟩
  · rintro ⟨hvalue, hsum, rfl⟩
    exact ⟨(), ⟨hvalue, hsum⟩, rfl⟩

theorem checkTxOut_eq_ok (acc : CAmount) (txout : CTxOut) (sum : CAmount) :
    checkTxOut acc txout = .ok sum ↔
      moneyRange txout.nValue = true ∧ moneyRange (acc + txout.nValue) = true ∧
        sum = acc + txout.nValue := by
  have hmax : ¬ maxMoney < txout.nValue := by
    simp only [Int64.lt_iff_toInt_lt, maxMoney, Int64.toInt_maxValue]
    have := txout.nValue.toInt_lt
    omega
  simp only [checkTxOut, bind_eq_ok, rejectIf_eq_ok, not_not]
  constructor
  · rintro ⟨-, hneg, -, -, -, hsum, heq⟩
    cases heq
    refine ⟨moneyRange_iff.mpr ?_, hsum, rfl⟩
    simpa [Int64.lt_iff_toInt_lt] using hneg
  · rintro ⟨hvalue, hsum, rfl⟩
    have hneg : ¬ txout.nValue < 0 := by
      simpa [Int64.lt_iff_toInt_lt] using moneyRange_iff.mp hvalue
    exact ⟨(), hneg, (), hmax, (), hsum, rfl⟩

theorem getValueOut_eq_ok {tx : CTransaction} {sum : CAmount} :
    tx.getValueOut = .ok sum ↔ OutputsInRange tx.vout ∧ sum.toInt = outputSum tx.vout := by
  rw [CTransaction.getValueOut, foldlM_outputs addValueOut_eq_ok _ _ _ (by decide)]
  simp only [Int64.toInt_zero, zero_add]
  constructor
  · rintro ⟨hnonneg, hlt, hsum⟩
    exact ⟨⟨hnonneg, hlt⟩, hsum⟩
  · rintro ⟨⟨hnonneg, hlt⟩, hsum⟩
    exact ⟨hnonneg, hlt, hsum⟩

theorem OutputsInRange.getValueOut {tx : CTransaction} (h : OutputsInRange tx.vout) :
    tx.getValueOut = .ok (Int64.ofInt (outputSum tx.vout)) := by
  rw [getValueOut_eq_ok]
  refine ⟨h, Int64.toInt_ofInt_of_le ?_ h.sum_lt⟩
  have := outputSum_nonneg h.nonneg
  omega

section Inputs

variable {view view' : CCoinsViewCache}

theorem accessUnspent_eq (view : CCoinsViewCache) (prevout : COutPoint) :
    accessUnspent view prevout =
      match view.utxo prevout with
      | none => .error (.assertion "!coin.IsSpent()")
      | some coin => .ok (coin, (view.accessCoin prevout).2) := by
  have hspent := view.accessCoin_isSpent prevout
  cases hutxo : view.utxo prevout with
  | none =>
    have htrue : (view.accessCoin prevout).1.isSpent = true := hspent.mpr hutxo
    simp [accessUnspent, assertThat, rejectIf, htrue]
  | some coin =>
    have hcoin := view.accessCoin_of_utxo prevout hutxo
    have hfalse : coin.isSpent = false := (utxo_eq_some.mp hutxo).2
    simp [accessUnspent, assertThat, rejectIf, hcoin, hfalse, pure, Except.pure]

/-- The body of an input loop over the abstract map of unspent coins. -/
def withCoin {ρ α : Type} (utxo : COutPoint → Option Coin) (prevout : α → COutPoint)
    (body : ρ → α → Coin → Result ρ) (acc : ρ) (input : α) : Result ρ :=
  match utxo (prevout input) with
  | none => .error (.assertion "!coin.IsSpent()")
  | some coin => body acc input coin

/-- An input loop over the cache computes what the same loop over the unspent coins does,
and only reads. -/
theorem foldlM_withUnspent {ρ α : Type} (prevout : α → COutPoint)
    (body : ρ → α → Coin → Result ρ) (inputs : List α) (acc : ρ) (view : CCoinsViewCache) :
    ∃ view', ReadsTo view view' ∧
      inputs.foldlM (withUnspent prevout body) (acc, view) =
        (inputs.foldlM (withCoin view.utxo prevout body) acc).map fun acc => (acc, view') := by
  induction inputs generalizing acc view with
  | nil => exact ⟨view, .refl view, rfl⟩
  | cons input rest ih =>
      rw [List.foldlM_cons, List.foldlM_cons, withUnspent, accessUnspent_eq, withCoin]
      cases view.utxo (prevout input) with
      | none => exact ⟨view, .refl view, rfl⟩
      | some coin =>
        simp only [ok_bind]
        cases hbody : body acc input coin with
        | error failure => exact ⟨view, .refl view, rfl⟩
        | ok acc' =>
          have hread := view.accessCoin_readsTo (prevout input)
          obtain ⟨view', hrest, heq⟩ := ih acc' (view.accessCoin (prevout input)).2
          refine ⟨view', hread.trans hrest, ?_⟩
          rw [hread.utxo] at heq
          exact heq

/-- The unspent coins the inputs name, in order. -/
def inputCoins (utxo : COutPoint → Option Coin) (vin : List CTxIn) : List Coin :=
  vin.filterMap fun txin => utxo txin.prevout

/-- Every input names an unspent coin. -/
def Available (utxo : COutPoint → Option Coin) (vin : List CTxIn) : Prop :=
  ∀ txin ∈ vin, (utxo txin.prevout).isSome = true

instance (utxo : COutPoint → Option Coin) (vin : List CTxIn) : Decidable (Available utxo vin) :=
  inferInstanceAs (Decidable (∀ txin ∈ vin, (utxo txin.prevout).isSome = true))

/-- The exact sum of the values of some coins. -/
def coinSum (coins : List Coin) : ℤ :=
  (coins.map fun coin => coin.out.nValue.toInt).sum

/-- The coinbase coins among the inputs have matured at the spending height. -/
def Matured (nSpendHeight : Int) (coins : List Coin) : Prop :=
  ∀ coin ∈ coins, coin.fCoinBase = true → coinbaseMaturity ≤ nSpendHeight - coin.nHeight

/-- Every input value is an amount and so is their exact sum. -/
structure CoinsInRange (coins : List Coin) : Prop where
  nonneg : ∀ coin ∈ coins, 0 ≤ coin.out.nValue.toInt
  sum_lt : coinSum coins < 2 ^ 63

@[simp]
theorem coinSum_nil : coinSum [] = 0 :=
  rfl

@[simp]
theorem coinSum_cons (coin : Coin) (coins : List Coin) :
    coinSum (coin :: coins) = coin.out.nValue.toInt + coinSum coins := by
  simp [coinSum]

theorem coinSum_nonneg {coins : List Coin} (h : ∀ coin ∈ coins, 0 ≤ coin.out.nValue.toInt) :
    0 ≤ coinSum coins := by
  apply List.sum_nonneg
  intro x hx
  obtain ⟨coin, hmem, rfl⟩ := List.mem_map.mp hx
  exact h coin hmem

variable {utxo : COutPoint → Option Coin}

@[simp]
theorem available_nil : Available utxo [] := by
  simp [Available]

theorem available_cons {txin : CTxIn} {vin : List CTxIn} :
    Available utxo (txin :: vin) ↔
      (utxo txin.prevout).isSome = true ∧ Available utxo vin := by
  simp [Available]

theorem inputCoins_cons {txin : CTxIn} {vin : List CTxIn} {coin : Coin}
    (h : utxo txin.prevout = some coin) :
    inputCoins utxo (txin :: vin) = coin :: inputCoins utxo vin := by
  simp [inputCoins, h]

theorem checkTxInput_eq_ok {nSpendHeight : Int} {acc sum : CAmount} {txin : CTxIn} {coin : Coin} :
    checkTxInput nSpendHeight acc txin coin = .ok sum ↔
      (coin.fCoinBase = true → coinbaseMaturity ≤ nSpendHeight - coin.nHeight) ∧
        0 ≤ coin.out.nValue.toInt ∧ 0 ≤ (acc + coin.out.nValue).toInt ∧
        sum = acc + coin.out.nValue := by
  simp only [checkTxInput, bind_eq_ok, rejectIf_eq_ok, not_or, not_not, moneyRange_iff,
    not_and, not_lt]
  constructor
  · rintro ⟨-, hmature, -, ⟨hvalue, hsum⟩, heq⟩
    cases heq
    exact ⟨hmature, hvalue, hsum, rfl⟩
  · rintro ⟨hmature, hvalue, hsum, rfl⟩
    exact ⟨(), hmature, (), ⟨hvalue, hsum⟩, rfl⟩

theorem foldlM_checkTxInput (nSpendHeight : Int) (vin : List CTxIn) (acc sum : CAmount)
    (hacc : 0 ≤ acc.toInt) :
    vin.foldlM (withCoin utxo CTxIn.prevout (checkTxInput nSpendHeight)) acc = .ok sum ↔
      Available utxo vin ∧ Matured nSpendHeight (inputCoins utxo vin) ∧
        (∀ coin ∈ inputCoins utxo vin, 0 ≤ coin.out.nValue.toInt) ∧
        acc.toInt + coinSum (inputCoins utxo vin) < 2 ^ 63 ∧
        sum.toInt = acc.toInt + coinSum (inputCoins utxo vin) := by
  induction vin generalizing acc with
  | nil =>
      have hlt := acc.toInt_lt
      simp only [foldlM_nil_eq_ok, inputCoins, List.filterMap_nil, coinSum_nil, add_zero, hlt,
        available_nil, Matured, List.not_mem_nil, false_implies, implies_true, true_and]
      rw [eq_comm, Int64.toInt_inj]
  | cons txin rest ih =>
      rw [foldlM_cons_eq_ok, available_cons]
      cases hcoin : utxo txin.prevout with
      | none => simp [withCoin, hcoin]
      | some coin =>
        simp only [withCoin, hcoin, checkTxInput_eq_ok, inputCoins_cons hcoin, Matured,
          List.forall_mem_cons, coinSum_cons, Option.isSome_some, true_and]
        constructor
        · rintro ⟨_, ⟨hmature, hvalue, hsum, rfl⟩, hrest⟩
          obtain ⟨havail, hmatured, hnonneg, hlt, heq⟩ := (ih _ hsum).mp hrest
          rcases toInt_add_nonneg hacc hvalue with ⟨hadd, -⟩ | ⟨hneg, -⟩
          · rw [hadd] at hlt heq
            exact ⟨havail, ⟨hmature, hmatured⟩, ⟨hvalue, hnonneg⟩, by omega, by omega⟩
          · omega
        · rintro ⟨havail, ⟨hmature, hmatured⟩, ⟨hvalue, hnonneg⟩, hlt, heq⟩
          have hrest := coinSum_nonneg hnonneg
          rcases toInt_add_nonneg hacc hvalue with ⟨hadd, -⟩ | ⟨-, hbig⟩
          · refine ⟨_, ⟨hmature, hvalue, by omega, rfl⟩, (ih _ (by omega)).mpr ?_⟩
            exact ⟨havail, hmatured, hnonneg, by omega, by omega⟩
          · omega

theorem haveCoins_spec (view : CCoinsViewCache) (vin : List CTxIn) :
    (view.haveCoins vin).1 = decide (Available view.utxo vin) ∧
      ReadsTo view (view.haveCoins vin).2 := by
  induction vin generalizing view with
  | nil => simp [haveCoins, ReadsTo.refl]
  | cons txin rest ih =>
      have hread := view.haveCoin_readsTo txin.prevout
      have hfound := view.haveCoin_fst txin.prevout
      obtain ⟨hrest, hreads⟩ := ih (view.haveCoin txin.prevout).2
      rw [hread.utxo] at hrest
      simp only [haveCoins, available_cons]
      cases hsome : (view.utxo txin.prevout).isSome with
      | false => simp [hfound, hsome, hread]
      | true => simp [hfound, hsome, hrest, hread.trans hreads]

/-- What `CheckTxInputs` accepts: inputs that are available, matured and in range, and that
are worth at least the outputs. It returns the fee, and only reads. -/
theorem checkTxInputs_eq_ok {tx : CTransaction} (hspend : tx.isCoinBase = false)
    (view : CCoinsViewCache) (nSpendHeight : Int) :
    ∃ view', view.ReadsTo view' ∧ ∀ r, checkTxInputs tx view nSpendHeight = .ok r ↔
      (Available view.utxo tx.vin ∧ Matured nSpendHeight (inputCoins view.utxo tx.vin) ∧
        CoinsInRange (inputCoins view.utxo tx.vin) ∧ OutputsInRange tx.vout ∧
        outputSum tx.vout ≤ coinSum (inputCoins view.utxo tx.vin)) ∧
      r.1.toInt = coinSum (inputCoins view.utxo tx.vin) - outputSum tx.vout ∧ r.2 = view' := by
  have hinputs : (view.haveInputs tx).1 = decide (Available view.utxo tx.vin) ∧
      ReadsTo view (view.haveInputs tx).2 := by
    simpa [haveInputs, hspend] using haveCoins_spec view tx.vin
  obtain ⟨hfound, hread⟩ := hinputs
  obtain ⟨view', hread', hloop⟩ := foldlM_withUnspent CTxIn.prevout (checkTxInput nSpendHeight)
    tx.vin 0 (view.haveInputs tx).2
  rw [hread.utxo] at hloop
  have hspec := fun sum => @foldlM_checkTxInput view.utxo nSpendHeight tx.vin 0 sum (by decide)
  simp only [Int64.toInt_zero, zero_add] at hspec
  refine ⟨view', hread.trans hread', fun ⟨fee, v⟩ => ?_⟩
  simp only [checkTxInputs, bind_eq_ok, rejectIf_eq_ok, hloop, not_not, hfound,
    decide_eq_true_eq, Int64.lt_iff_toInt_lt, not_lt, moneyRange_iff, map_eq_ok]
  constructor
  · rintro ⟨-, havail, _, ⟨total, hsum, rfl⟩, valueOut, hout, -, hle, -, -, h⟩
    cases h
    obtain ⟨-, hmatured, hnonneg, hlt, heq⟩ := (hspec total).mp hsum
    obtain ⟨hrange, hvalue⟩ := getValueOut_eq_ok.mp hout
    have hin := coinSum_nonneg hnonneg
    have hvalueOut := outputSum_nonneg hrange.nonneg
    dsimp only at hle ⊢
    refine ⟨⟨havail, hmatured, ⟨hnonneg, hlt⟩, hrange, by omega⟩, ?_, rfl⟩
    rw [toInt_sub_nonneg (by omega) (by omega)]
    omega
  · rintro ⟨⟨havail, hmatured, hcoins, hrange, hle⟩, hfee, rfl⟩
    have hin := coinSum_nonneg hcoins.nonneg
    have hvalueOut := outputSum_nonneg hrange.nonneg
    have htotal : (Int64.ofInt (coinSum (inputCoins view.utxo tx.vin))).toInt =
        coinSum (inputCoins view.utxo tx.vin) :=
      Int64.toInt_ofInt_of_le (by omega) hcoins.sum_lt
    have hout := hrange.getValueOut
    obtain ⟨-, hvalue⟩ := getValueOut_eq_ok.mp hout
    have hsub := toInt_sub_nonneg (htotal ▸ hin) (hvalue ▸ hvalueOut)
    refine ⟨(), havail, _, ⟨_, (hspec _).mpr ⟨havail, hmatured, hcoins.nonneg, hcoins.sum_lt,
      htotal⟩, rfl⟩, _, hout, (), by dsimp only; omega, (), by dsimp only; omega, ?_⟩
    rw [← htotal, ← hvalue, ← hsub, Int64.toInt_inj] at hfee
    rw [← hfee]
    rfl

theorem checkTxInputs_isOk_iff {tx : CTransaction} (hspend : tx.isCoinBase = false)
    (view : CCoinsViewCache) (nSpendHeight : Int) :
    (∃ r, checkTxInputs tx view nSpendHeight = .ok r) ↔
      Available view.utxo tx.vin ∧ Matured nSpendHeight (inputCoins view.utxo tx.vin) ∧
        CoinsInRange (inputCoins view.utxo tx.vin) ∧ OutputsInRange tx.vout ∧
        outputSum tx.vout ≤ coinSum (inputCoins view.utxo tx.vin) := by
  obtain ⟨view', -, hiff⟩ := checkTxInputs_eq_ok hspend view nSpendHeight
  constructor
  · rintro ⟨r, h⟩
    exact ((hiff r).mp h).1
  · intro hpass
    have hin := hpass.2.2.1.sum_lt
    have hout := outputSum_nonneg hpass.2.2.2.1.nonneg
    refine ⟨(Int64.ofInt _, view'), (hiff _).mpr ⟨hpass, Int64.toInt_ofInt_of_le ?_ ?_, rfl⟩⟩
    · have hle := hpass.2.2.2.2
      omega
    · omega

theorem foldl_addValueIn (vin : List CTxIn) (acc : CAmount) (view : CCoinsViewCache)
    (havail : Available view.utxo vin) :
    (vin.foldl addValueIn (acc, view)).1.toInt =
      wrap64 (acc.toInt + coinSum (inputCoins view.utxo vin)) := by
  induction vin generalizing acc view with
  | nil => simpa [inputCoins] using toInt_eq_wrap64 acc
  | cons txin rest ih =>
      obtain ⟨hsome, hrest⟩ := available_cons.mp havail
      obtain ⟨coin, hcoin⟩ := Option.isSome_iff_exists.mp hsome
      have hread := view.accessCoin_readsTo txin.prevout
      have hstep : addValueIn (acc, view) txin =
          (acc + coin.out.nValue, (view.accessCoin txin.prevout).2) := by
        simp [addValueIn, view.accessCoin_of_utxo txin.prevout hcoin]
      rw [List.foldl_cons, hstep, ih _ _ (by rwa [hread.utxo]), hread.utxo,
        inputCoins_cons hcoin, coinSum_cons, toInt_add, wrap64_wrap64_add, add_assoc]

theorem foldl_addValueIn_readsTo (vin : List CTxIn) (acc : CAmount) (view : CCoinsViewCache) :
    ReadsTo view (vin.foldl addValueIn (acc, view)).2 := by
  induction vin generalizing acc view with
  | nil => exact .refl view
  | cons txin rest ih => exact (view.accessCoin_readsTo txin.prevout).trans (ih _ _)

theorem getValueIn_toInt {tx : CTransaction} (hspend : tx.isCoinBase = false)
    (view : CCoinsViewCache) (havail : Available view.utxo tx.vin) :
    (view.getValueIn tx).1.toInt = wrap64 (coinSum (inputCoins view.utxo tx.vin)) := by
  simpa [getValueIn, hspend] using foldl_addValueIn tx.vin 0 view havail

theorem getValueIn_readsTo (view : CCoinsViewCache) (tx : CTransaction) :
    ReadsTo view (view.getValueIn tx).2 := by
  unfold getValueIn
  split
  · exact .refl view
  · exact foldl_addValueIn_readsTo tx.vin 0 view

end Inputs

end Verium
