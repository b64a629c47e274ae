import Verium.Consensus.SpendRules
import Verium.Mempool.Accept
import Verium.Mempool.HashList

/-!
What a transaction that passes `PreChecks` has been found to satisfy, and the fee rule of the pool
against the fee rule of blocks.
-/

namespace Verium

open Lib

theorem max_toInt (a b : Int64) : (max a b).toInt = max a.toInt b.toInt := by
  change (if a ≤ b then b else a).toInt = _
  rw [max_def, apply_ite Int64.toInt]
  simp only [Int64.le_iff_toInt_le]

/-- The size is the larger one of the bytes and what the signature operations count for. -/
theorem toNat_txSize {env : PoolEnv} {tx : CTransaction} {sigOpCost : Int64}
    (hsize : tx.getTotalSize ≤ maxBlockWeight) (hnonneg : 0 ≤ sigOpCost.toInt)
    (hsigops : sigOpCost.toInt ≤ maxStandardTxSigOpsCost) :
    (CTxMemPoolEntry.txSize env tx sigOpCost).toNat =
      max tx.getTotalSize (sigOpCost.toInt.toNat * env.nBytesPerSigOp.toNat) := by
  have hweight : (Int64.ofNat (getTransactionWeight tx)).toInt = tx.getTotalSize := by
    rw [getTransactionWeight, witnessScaleFactor, Nat.sub_self, Nat.mul_zero, Nat.zero_add]
    exact Int64.toInt_ofNat_of_lt (lt_of_le_of_lt hsize (by decide))
  have hbytes : (Int64.ofNat env.nBytesPerSigOp.toNat).toInt = env.nBytesPerSigOp.toNat :=
    Int64.toInt_ofNat_of_lt (lt_trans env.nBytesPerSigOp.toNat_lt (by decide))
  have hlt := env.nBytesPerSigOp.toNat_lt
  have hproduct : (sigOpCost * Int64.ofNat env.nBytesPerSigOp.toNat).toInt =
      sigOpCost.toInt * env.nBytesPerSigOp.toNat := by
    have hlow : 0 ≤ sigOpCost.toInt * env.nBytesPerSigOp.toNat :=
      mul_nonneg hnonneg (Int.natCast_nonneg _)
    have hhigh : sigOpCost.toInt * env.nBytesPerSigOp.toNat ≤ maxStandardTxSigOpsCost * 2 ^ 32 :=
      mul_le_mul hsigops (by exact_mod_cast hlt.le) (Int.natCast_nonneg _) (Int.natCast_nonneg _)
    rw [Int64.toInt_mul, hbytes]
    exact wrap64_of_fits (by omega) (lt_of_le_of_lt hhigh (by decide))
  have hvirtual : getVirtualTransactionSize (Int64.ofNat (getTransactionWeight tx)) sigOpCost
      env.nBytesPerSigOp = max (Int64.ofNat (getTransactionWeight tx))
        (sigOpCost * Int64.ofNat env.nBytesPerSigOp.toNat) := by
    change (_ + 1 - 1) / (1 : Int64) = _
    rw [add_sub_cancel_right, Int64.div_one]
  have hmax : (max (Int64.ofNat (getTransactionWeight tx))
      (sigOpCost * Int64.ofNat env.nBytesPerSigOp.toNat)).toInt =
        max tx.getTotalSize (sigOpCost.toInt.toNat * env.nBytesPerSigOp.toNat) := by
    rw [max_toInt, hweight, hproduct]
    push_cast
    rw [Int.toNat_of_nonneg hnonneg]
  rw [CTxMemPoolEntry.txSize, hvirtual, toNat_toUInt64 (by rw [hmax]; exact Int.natCast_nonneg _),
    hmax]
  rfl

section EntryPassed

variable {env : PoolEnv} {ctx : AcceptContext} {args : ATMPArgs} {pool : CTxMemPool}
  {tx : CTransaction} {checked : EntryChecked}

theorem sumOverInputs_ok {count : CTxIn → CTxOut → Result Nat} (bound : CTxIn → Nat)
    (hbound : ∀ txin out k, count txin out = .ok k → k ≤ bound txin) {vin : List CTxIn}
    {n n' : Nat} {view view' : CCoinsViewCache}
    (h : vin.foldlM (sumOverInputs count) (n, view) = .ok (n', view')) :
    view.ReadsTo view' ∧ n' ≤ n + (vin.map bound).sum := by
  induction vin generalizing n view with
  | nil =>
    cases h
    exact ⟨.refl _, by simp⟩
  | cons txin rest ih =>
    obtain ⟨⟨mid, read⟩, hstep, hrest⟩ := foldlM_cons_eq_ok.mp h
    obtain ⟨⟨coin, read'⟩, haccess, hstep⟩ := bind_eq_ok.mp hstep
    obtain ⟨total, hcount, hstep⟩ := bind_eq_ok.mp hstep
    obtain ⟨k, hk, hcount⟩ := bind_eq_ok.mp hcount
    cases hcount
    cases hstep
    obtain ⟨-, -, haccess⟩ := bind_eq_ok.mp haccess
    cases haccess
    obtain ⟨hreads, hle⟩ := ih hrest
    have hone := hbound txin _ k hk
    refine ⟨(CCoinsViewCache.accessCoin_readsTo view txin.prevout).trans hreads, ?_⟩
    rw [List.map_cons, List.sum_cons]
    omega

/-- The scripts of a transaction are part of what is serialized. -/
theorem scripts_le_getTotalSize (tx : CTransaction) :
    (tx.vin.map fun txin => txin.scriptSig.length).sum +
      (tx.vout.map fun txout => txout.scriptPubKey.length).sum ≤ tx.getTotalSize := by
  have hvin : (tx.vin.map fun txin => txin.scriptSig.length).sum ≤
      (tx.vin.map fun txin => txin.serialize.length).sum := by
    apply List.sum_le_sum
    intro txin _
    simp only [CTxIn.serialize, List.length_append, serBytes_length]
    omega
  have hvout : (tx.vout.map fun txout => txout.scriptPubKey.length).sum ≤
      (tx.vout.map fun txout => txout.serialize.length).sum := by
    apply List.sum_le_sum
    intro txout _
    rw [CTxOut.serialize_length]
    omega
  simp only [CTransaction.getTotalSize, CTransaction.serialize, List.length_append,
    serVector_length]
  omega

theorem getLegacySigOpCount_le (tx : CTransaction) :
    getLegacySigOpCount tx ≤ 20 * tx.getTotalSize := by
  have hvin : (tx.vin.map fun txin => getSigOpCount false txin.scriptSig).sum ≤
      (tx.vin.map fun txin => 20 * txin.scriptSig.length).sum :=
    List.sum_le_sum fun txin _ => getSigOpCount_le false txin.scriptSig
  have hvout : (tx.vout.map fun txout => getSigOpCount false txout.scriptPubKey).sum ≤
      (tx.vout.map fun txout => 20 * txout.scriptPubKey.length).sum :=
    List.sum_le_sum fun txout _ => getSigOpCount_le false txout.scriptPubKey
  have hscripts := scripts_le_getTotalSize tx
  rw [List.sum_map_mul_left] at hvin hvout
  unfold getLegacySigOpCount
  omega

theorem getP2SHSigOpCount_ok {n : Nat} {view view' : CCoinsViewCache}
    (h : getP2SHSigOpCount tx view = .ok (n, view')) :
    view.ReadsTo view' ∧ n ≤ 20 * tx.getTotalSize := by
  unfold getP2SHSigOpCount at h
  split at h
  · cases h
    exact ⟨.refl _, Nat.zero_le _⟩
  · have hcount : ∀ (txin : CTxIn) (prevout : CTxOut) (k : Nat),
        (.ok (if isPayToScriptHash prevout.scriptPubKey then
          getSigOpCountSpending prevout.scriptPubKey txin.scriptSig else 0) : Result Nat) = .ok k →
        k ≤ 20 * txin.scriptSig.length := by
      intro txin prevout k hk
      cases hk
      split
      next hscript =>
        rw [getSigOpCountSpending, if_pos hscript]
        split
        · exact (getSigOpCount_le _ _).trans
            (Nat.mul_le_mul_left _ (length_lastPushed_le txin.scriptSig))
        · exact Nat.zero_le _
      next => exact Nat.zero_le _
    obtain ⟨hreads, hle⟩ := sumOverInputs_ok _ hcount h
    have hscripts := scripts_le_getTotalSize tx
    rw [List.sum_map_mul_left] at hle
    exact ⟨hreads, by omega⟩

/-- There are no witness programs, so nothing is counted in them. -/
theorem countWitnessSigOps_ok {scriptSig scriptPubKey : CScript} {witness : CScriptWitness}
    {flags : UInt32} {n : Nat}
    (h : countWitnessSigOps scriptSig scriptPubKey witness flags = .ok n) : n ≤ 0 := by
  simp only [countWitnessSigOps, isWitnessProgram] at h
  split at h
  · cases h
    exact le_rfl
  · obtain ⟨-, -, h⟩ := bind_eq_ok.mp h
    split at h
    all_goals
      cases h
      exact le_rfl

/-- Counting only reads, and finds at most twenty operations for each byte of the scripts, once
where they stand and once more in the redeem scripts. -/
theorem getTransactionSigOpCost_ok {view view' : CCoinsViewCache} {flags : UInt32} {cost : Nat}
    (h : getTransactionSigOpCost tx view flags = .ok (cost, view')) :
    view.ReadsTo view' ∧ cost ≤ 40 * tx.getTotalSize := by
  have hlegacy := getLegacySigOpCount_le tx
  unfold getTransactionSigOpCost at h
  simp only [witnessScaleFactor, Nat.mul_one] at h
  split at h
  · cases h
    exact ⟨.refl view, by omega⟩
  · have hp2sh : ∃ n mid, (view.ReadsTo mid ∧ n ≤ 20 * tx.getTotalSize) ∧
        tx.vin.foldlM (sumOverInputs fun txin prevout =>
          countWitnessSigOps txin.scriptSig prevout.scriptPubKey txin.scriptWitness flags)
          (getLegacySigOpCount tx + n, mid) = .ok (cost, view') := by
      split at h
      · obtain ⟨⟨n, mid⟩, hcount, h⟩ := bind_eq_ok.mp h
        exact ⟨n, mid, getP2SHSigOpCount_ok hcount, h⟩
      · exact ⟨0, view, ⟨.refl view, Nat.zero_le _⟩, h⟩
    obtain ⟨n, mid, ⟨hread, hsmall⟩, h⟩ := hp2sh
    obtain ⟨hreads, hle⟩ := sumOverInputs_ok _ (fun _ _ _ => countWitnessSigOps_ok) h
    rw [List.map_const', List.sum_replicate, smul_zero] at hle
    exact ⟨hread.trans hreads, by omega⟩

theorem fetchInputs_utxo {view : CCoinsViewCache} (hview : fetchInputs env ctx pool tx = .ok view)
    {outpoint : COutPoint} {coin : Coin} (hcoin : view.utxo outpoint = some coin) :
    (viewMemPool ctx pool).getCoin outpoint = some coin := by
  obtain ⟨fetched, hloop, hview⟩ := bind_eq_ok.mp hview
  cases hview
  have hreads : CCoinsViewCache.ReadsTo ⟨viewMemPool ctx pool, 0, ∅, 0⟩ fetched := by
    refine foldlM_invariant (I := CCoinsViewCache.ReadsTo ⟨viewMemPool ctx pool, 0, ∅, 0⟩)
      (fun txin _ view view' hread hstep => ?_) (.refl _) hloop
    obtain ⟨⟨⟩, -, hstep⟩ := bind_eq_ok.mp hstep
    obtain ⟨⟨⟩, -, hstep⟩ := bind_eq_ok.mp hstep
    cases hstep
    exact hread.trans (CCoinsViewCache.haveCoin_readsTo view txin.prevout)
  -- the view is cut off from the pool, so the coin is one that has been fetched
  have hcached : fetched.coinAt outpoint = some coin := by
    have hat := (CCoinsViewCache.utxo_eq_some.mp hcoin).1
    unfold CCoinsViewCache.coinAt at hat ⊢
    split at hat
    · next entry hentry =>
      rw [hentry]
      exact hat
    · cases hat
  rw [hreads.coinAt] at hcached
  exact hcached

/-- What the first part of `PreChecks` has found out when it passes. -/
structure EntryPassed (env : PoolEnv) (ctx : AcceptContext) (args : ATMPArgs) (pool : CTxMemPool)
    (tx : CTransaction) (checked : EntryChecked) : Prop where
  checkedTx : CheckedTx tx
  spend : tx.isCoinBase = false
  /-- The transaction is not in the pool yet. -/
  fresh : tx.getHash env.crypto ∉ pool.mapTx
  final : ctx.checkFinalTx tx = true
  locked : (ctx.checkSequenceLocks pool tx).1 = true
  conflicts : tx.vin.foldlM (addConflict env pool) ∅ = .ok checked.conflicts
  tx_eq : checked.entry.tx = tx
  feeDelta : checked.entry.feeDelta = 0
  available : Available checked.view.utxo tx.vin
  fetched : ∀ {outpoint coin}, checked.view.utxo outpoint = some coin →
    (viewMemPool ctx pool).getCoin outpoint = some coin
  nFee : checked.entry.nFee.toInt =
    coinSum (inputCoins checked.view.utxo tx.vin) - outputSum tx.vout
  nModifiedFees : checked.nModifiedFees = pool.applyDelta (tx.getHash env.crypto) checked.entry.nFee
  sigOpCost : 0 ≤ checked.entry.sigOpCost.toInt ∧
    checked.entry.sigOpCost.toInt ≤ maxStandardTxSigOpsCost
  feeRate : args.bypassLimits = false →
    checkFeeRate ctx (checked.entry.nSize env).toNat checked.nModifiedFees = .ok ()
  fee : poolRequiredFee ctx (checked.entry.nSize env) ≤ checked.entry.nFee

theorem preChecksEntry_passed (h : preChecksEntry env ctx args pool tx = .ok checked) :
    EntryPassed env ctx args pool tx checked := by
  obtain ⟨⟨⟩, hloose, h⟩ := bind_eq_ok.mp h
  obtain ⟨conflicts, hconflicts, h⟩ := bind_eq_ok.mp h
  obtain ⟨view, hfetch, h⟩ := bind_eq_ok.mp h
  obtain ⟨⟨entry, view'⟩, hmade, h⟩ := bind_eq_ok.mp h
  obtain ⟨⟨⟩, hfees, h⟩ := bind_eq_ok.mp h
  cases h
  rw [mapError_eq_ok] at hloose hconflicts hmade hfees
  simp only [checkLoose, bind_eq_ok, rejectIf_eq_ok, not_not] at hloose
  obtain ⟨⟨⟩, htx, -, hspend, -, -, -, -, -, hfinal, hfresh⟩ := hloose
  have hspend : tx.isCoinBase = false := by simpa using hspend
  have hchecked := checkTransaction_checked htx
  simp only [makeEntry, bind_eq_ok, rejectIf_eq_ok, not_not] at hmade
  obtain ⟨-, hlocked, ⟨nFees, read⟩, hinputs, -, -, -, -, ⟨cost, read'⟩, hcost, hmade⟩ := hmade
  cases hmade
  obtain ⟨_, hread, hiff⟩ := checkTxInputs_eq_ok hspend _ _
  obtain ⟨⟨havail, -⟩, hfee, rfl⟩ := (hiff _).mp hinputs
  obtain ⟨hcounted, hcost⟩ := getTransactionSigOpCost_ok hcost
  have hreads := hread.trans hcounted
  rw [← hreads.utxo] at havail hfee
  simp only [checkEntryFees, bind_eq_ok, rejectIf_eq_ok, Int64.not_lt] at hfees
  obtain ⟨-, hsigops, ⟨⟩, hrate, hrequired⟩ := hfees
  refine ⟨hchecked, hspend, hfresh, hfinal, hlocked, hconflicts, rfl, rfl, havail, ?_, hfee, rfl,
    ⟨?_, ?_⟩, fun hlimits => checkWhen_eq_ok.mp hrate (by simp [hlimits]), hrequired⟩
  · intro outpoint coin hcoin
    rw [hreads.utxo] at hcoin
    exact fetchInputs_utxo hfetch hcoin
  · have hsize := hchecked.size
    have hcount : (Int64.ofNat cost).toInt = cost := by
      apply Int64.toInt_ofNat_of_lt
      rw [show maxBlockWeight = 1000000 from rfl] at hsize
      omega
    exact hcount ▸ Int.natCast_nonneg cost
  · rw [Int64.le_iff_toInt_le] at hsigops
    exact hsigops

/-- The two parts of `PreChecks`, when it passes. -/
theorem preChecks_ok {ws : Workspace} {view : CCoinsViewCache}
    (h : preChecks env ctx args pool tx = .ok (ws, view)) :
    ∃ checked, EntryPassed env ctx args pool tx checked ∧ view = checked.view ∧
      ws.entry = checked.entry ∧ ws.nModifiedFees = checked.nModifiedFees ∧
      ws.conflicts = checked.conflicts ∧
      replacementTotals env pool tx checked (pool.getIterSet checked.conflicts.elems) =
        .ok (ws.allConflicting, ws.nConflictingFees, ws.nConflictingSize) := by
  obtain ⟨checked, hentry, h⟩ := bind_eq_ok.mp h
  obtain ⟨ws', hpackage, h⟩ := bind_eq_ok.mp h
  cases h
  obtain ⟨-, -, hpackage⟩ := bind_eq_ok.mp (mapError_eq_ok.mp hpackage)
  obtain ⟨limits, -, hpackage⟩ := bind_eq_ok.mp hpackage
  obtain ⟨ancestors, -, hpackage⟩ := bind_eq_ok.mp hpackage
  obtain ⟨-, -, hpackage⟩ := bind_eq_ok.mp hpackage
  obtain ⟨totals, htotals, hpackage⟩ := bind_eq_ok.mp hpackage
  cases hpackage
  exact ⟨checked, preChecksEntry_passed hentry, rfl, rfl, rfl, rfl, htotals⟩

end EntryPassed

section RequiredFee

theorem getMinTxFee_antitone (params : Params) (tipHeight : Option Nat) {nHeight nHeight' : Nat}
    (h : nHeight < nHeight') :
    (getMinTxFee params tipHeight nHeight').toInt ≤
      (getMinTxFee params (some nHeight) 0).toInt := by
  have hle : vip1MinTxFee.toInt ≤ minTxFee.toInt := by decide
  simp only [getMinTxFee, if_true, if_neg (show nHeight' ≠ 0 by omega)]
  rcases Nat.lt_or_ge nHeight' params.vip1Height with hbefore | hafter
  · rw [if_pos hbefore, if_pos (by omega)]
  · rw [if_neg (Nat.not_lt.mpr hafter)]
    rcases Nat.lt_or_ge (nHeight + 1) params.vip1Height with hbelow | habove
    · rwa [if_pos hbelow]
    · rw [if_neg (Nat.not_lt.mpr habove)]

theorem coinSum_congr {utxo utxo' : COutPoint → Option Coin} {vin : List CTxIn}
    (h : ∀ txin ∈ vin, (utxo' txin.prevout).map Coin.out = (utxo txin.prevout).map Coin.out) :
    coinSum (inputCoins utxo' vin) = coinSum (inputCoins utxo vin) := by
  have hvalues : ∀ u : COutPoint → Option Coin, coinSum (inputCoins u vin) =
      (vin.filterMap fun txin => ((u txin.prevout).map Coin.out).map fun out =>
        out.nValue.toInt).sum := by
    intro u
    rw [coinSum, inputCoins, List.map_filterMap]
    simp only [Option.map_map, Function.comp_def]
  rw [hvalues, hvalues]
  refine congrArg List.sum (List.filterMap_congr ?_)
  intro txin hmem
  rw [h txin hmem]

variable {env : PoolEnv} {ctx : AcceptContext} {args : ATMPArgs} {pool : CTxMemPool}
  {tx : CTransaction} {checked : EntryChecked}

/-- A transaction that has passed the fee test of `PreChecks` passes the fee test of `ConnectBlock`
at every greater height. The first part is the test itself, in terms of `GetTxSize`: the source
keeps the size in 32 bits, which hold it unless `-bytespersigop` is more than 25000 times its
default. -/
theorem poolFee_covers_blockFee (nHeight : Nat) (htip : ctx.tipHeight = some nHeight)
    (hpass : preChecksEntry env ctx args pool tx = .ok checked) :
    (maxStandardTxSigOpsCost * env.nBytesPerSigOp.toNat < 2 ^ 32 →
      getFee (getMinTxFee ctx.params ctx.tipHeight 0) (checked.entry.getTxSize env).toNat true ≤
        checked.entry.nFee) ∧
    (getFee (getMinTxFee ctx.params ctx.tipHeight 0) (checked.entry.getTxSize env).toNat true ≤
        checked.entry.nFee →
      ∀ (nHeight' : Nat) (tipHeight' : Option Nat) (view : CCoinsViewCache) (nTxValueOut : CAmount),
        nHeight < nHeight' →
        (∀ txin ∈ tx.vin, (view.utxo txin.prevout).map Coin.out =
          (checked.view.utxo txin.prevout).map Coin.out) →
        tx.getValueOut = .ok nTxValueOut →
        requiredFee ctx.params tipHeight' nHeight' tx ≤ (view.getValueIn tx).1 - nTxValueOut) := by
  have hpassed := preChecksEntry_passed hpass
  have hsize := hpassed.checkedTx.size
  have htxSize : (checked.entry.getTxSize env).toNat = max tx.getTotalSize
      (checked.entry.sigOpCost.toInt.toNat * env.nBytesPerSigOp.toNat) := by
    rw [CTxMemPoolEntry.getTxSize, hpassed.tx_eq]
    exact toNat_txSize hsize hpassed.sigOpCost.1 hpassed.sigOpCost.2
  have hsigops : checked.entry.sigOpCost.toInt.toNat * env.nBytesPerSigOp.toNat ≤
      maxStandardTxSigOpsCost * env.nBytesPerSigOp.toNat := by
    have hle := hpassed.sigOpCost.2
    exact Nat.mul_le_mul_right _ (by omega)
  have hweight : maxBlockWeight = 1000000 := rfl
  constructor
  · intro hbytes
    have hfits : (checked.entry.nSize env).toNat = (checked.entry.getTxSize env).toNat := by
      rw [CTxMemPoolEntry.nSize, UInt64.toNat_toUInt32]
      exact Nat.mod_eq_of_lt (by omega)
    have hfee := hpassed.fee
    rwa [poolRequiredFee, hfits] at hfee
  · intro hfee nHeight' tipHeight' view nTxValueOut hheight hsame hout
    have hpos := getMinTxFee_pos ctx.params (some nHeight) 0
    have hrate := getMinTxFee_antitone ctx.params tipHeight' hheight
    have hlt := env.nBytesPerSigOp.toNat_lt
    rw [show maxStandardTxSigOpsCost = 8000 from rfl] at hsigops
    rw [Int64.le_iff_toInt_le, htip, toInt_getFee _ _ _ (by omega), hpassed.nFee] at hfee
    have havail : Available view.utxo tx.vin := by
      intro txin hmem
      have hsome := hpassed.available txin hmem
      rw [← Option.isSome_map (f := Coin.out), ← hsame txin hmem, Option.isSome_map] at hsome
      exact hsome
    have hin := getValueIn_toInt hpassed.spend view havail
    obtain ⟨hrange, hvalue⟩ := getValueOut_eq_ok.mp hout
    have hnonneg := outputSum_nonneg hrange.nonneg
    rw [Int64.le_iff_toInt_le, toInt_sub, hin, hvalue, wrap64_wrap64_sub, coinSum_congr hsame,
      ← hpassed.nFee, ← toInt_eq_wrap64, hpassed.nFee, requiredFee,
      toInt_getFee _ _ _ (by omega)]
    refine le_trans ?_ hfee
    gcongr
    omega

end RequiredFee

/-- A node well after `VIP1Height`, with one coin of ten. -/
def sampleAccept : AcceptContext where
  params := sampleEnv.params
  tipHeight := some 600000
  coinsTip := ⟨fun o => if o = ⟨1, 0⟩ then some ⟨⟨1000000000, [0x51]⟩, false, 1⟩ else none, 7⟩
  haveCoinInCache _ := false
  getSpendHeight _ := 600001
  checkFinalTx _ := true
  checkSequenceLocks _ _ := (true, ⟨0, 0, none⟩)
  fRequireStandard := false
  notStandard _ := none
  areInputsStandard _ _ := true
  isWitnessStandard _ _ := true
  scriptChecks _ _ _ := .ok ()
  fEnforceMinRelayTxFee := false
  minRelayTxFee := 0
  limits := ⟨25, 101000, 25, 101000⟩
  score _ _ := false
  usage _ := 0
  sizelimit := 300000000
  expiry := 0

def sampleATMPArgs : ATMPArgs := ⟨0, false, 0, false⟩

/-- Spends the coin, signals that it may be replaced, and pays the given fee. The length is that of
the output script. -/
def sampleSpend (nFee : CAmount) (length : Nat) : CTransaction :=
  ⟨1, 0, [{ prevout := ⟨1, 0⟩, scriptSig := [], nSequence := 0 }],
    [⟨1000000000 - nFee, List.replicate length 0x51⟩], 0⟩

theorem sampleSpend_paysBlockFee :
    ∃ checked, preChecksEntry samplePoolEnv sampleAccept sampleATMPArgs .empty
        (sampleSpend 100000 40) = .ok checked ∧
      requiredFee sampleEnv.params none 700000 (sampleSpend 100000 40) ≤
        (checked.view.getValueIn (sampleSpend 100000 40)).1 - 999900000 := by
  have hok : (preChecksEntry samplePoolEnv sampleAccept sampleATMPArgs .empty
      (sampleSpend 100000 40)).toOption.isSome = true := by
    decide +kernel
  obtain ⟨checked, hchecked⟩ := Option.isSome_iff_exists.mp hok
  have hpass := toOption_eq_some.mp hchecked
  obtain ⟨htest, hcovers⟩ := poolFee_covers_blockFee 600000 rfl hpass
  refine ⟨checked, hpass, ?_⟩
  exact hcovers (htest (by decide)) 700000 none checked.view 999900000 (by decide)
    (fun _ _ => rfl) (by decide +kernel)

end Verium
