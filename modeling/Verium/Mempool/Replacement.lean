import Verium.Mempool.AcceptSpec
import Verium.Mempool.Contents

/-!
Replacement of transactions in the pool: the fee rate of a replacement against the rates of the
transactions it conflicts with, and its fee against the fees of everything it evicts. The source
compares the rates after taking the start fee off the old ones only, and it accepts a replacement
that pays no more than what it evicts.
-/

namespace Verium

open Lib

section Conflicts

variable {env : PoolEnv} {ctx : AcceptContext} {args : ATMPArgs} {pool : CTxMemPool}
  {tx : CTransaction} {ws : Workspace} {view : CCoinsViewCache}

/-- The entry spends an outpoint that the transaction spends. -/
def CTxMemPool.ConflictsWith (env : PoolEnv) (pool : CTxMemPool) (tx : CTransaction)
    (hash : UInt256) (e : CTxMemPoolEntry) : Prop :=
  pool.mapTx.lookup hash = some e ∧
    ∃ txin ∈ tx.vin, ∃ next, pool.mapNextTx.lookup txin.prevout = some next ∧
      hash = next.getHash env.crypto

theorem mem_conflicts {vin : List CTxIn} {start conflicts : SetEntries}
    (h : vin.foldlM (addConflict env pool) start = .ok conflicts) (hash : UInt256) :
    hash ∈ conflicts ↔ hash ∈ start ∨
      ∃ txin ∈ vin, ∃ next, pool.mapNextTx.lookup txin.prevout = some next ∧
        hash = next.getHash env.crypto := by
  induction vin generalizing start with
  | nil =>
    cases h
    simp
  | cons txin rest ih =>
    obtain ⟨mid, hfirst, hrest⟩ := foldlM_cons_eq_ok.mp h
    rw [ih hrest]
    unfold addConflict at hfirst
    cases hnext : pool.mapNextTx.lookup txin.prevout with
    | none =>
      rw [hnext] at hfirst
      cases hfirst
      simp [hnext]
    | some next =>
      rw [hnext] at hfirst
      obtain ⟨-, -, hfirst⟩ := bind_eq_ok.mp hfirst
      cases hfirst
      simp only [SortedSet.mem_insert, List.mem_cons, exists_eq_or_imp, hnext, Option.some.injEq,
        exists_eq_left']
      tauto

/-- What the transaction pays in the pool, as an exact number: the coins that it spends, which are
outputs of the pool or coins of the tip, less its own outputs, and the delta for its hash. -/
def offeredFee (env : PoolEnv) (ctx : AcceptContext) (pool : CTxMemPool) (tx : CTransaction) : ℤ :=
  coinSum (inputCoins (viewMemPool ctx pool).getCoin tx.vin) - outputSum tx.vout +
    ((pool.mapDeltas.lookup (tx.getHash env.crypto)).getD 0).toInt

/-- What `PreChecks` has found out about the replacement when it passes. -/
structure ReplacementPassed (env : PoolEnv) (ctx : AcceptContext) (pool : CTxMemPool)
    (tx : CTransaction) (ws : Workspace) : Prop where
  fresh : tx.getHash env.crypto ∉ pool.mapTx
  tx_eq : ws.entry.tx = tx
  feeDelta : ws.entry.feeDelta = 0
  nModifiedFees : ws.nModifiedFees = pool.applyDelta (tx.getHash env.crypto) ws.entry.nFee
  /-- The fee is the one offered, in 64 bits. -/
  offered : ws.nModifiedFees.toInt = wrap64 (offeredFee env ctx pool tx)
  size : (ws.entry.getTxSize env).toNat ≤
    max maxBlockWeight (maxStandardTxSigOpsCost * env.nBytesPerSigOp.toNat)
  conflicts : ∀ hash, hash ∈ ws.conflicts ↔
    ∃ txin ∈ tx.vin, ∃ next, pool.mapNextTx.lookup txin.prevout = some next ∧
      hash = next.getHash env.crypto
  evicted : ws.conflicts.elems = [] ∧ ws.allConflicting = ∅ ∨
    checkReplacement env pool tx (pool.getIterSet ws.conflicts.elems) ws.nModifiedFees
      (ws.entry.nSize env) = .ok (ws.allConflicting, ws.nConflictingFees, ws.nConflictingSize)

theorem preChecks_replacement (h : preChecks env ctx args pool tx = .ok (ws, view)) :
    ReplacementPassed env ctx pool tx ws := by
  obtain ⟨checked, hpassed, -, hentry, hfees, hconflicts, htotals⟩ := preChecks_ok h
  refine ⟨hpassed.fresh, hentry ▸ hpassed.tx_eq, hentry ▸ hpassed.feeDelta,
    hfees ▸ hentry ▸ hpassed.nModifiedFees, ?_, ?_, ?_, ?_⟩
  · have hcoins : coinSum (inputCoins (viewMemPool ctx pool).getCoin tx.vin) =
        coinSum (inputCoins checked.view.utxo tx.vin) := by
      apply coinSum_congr
      intro txin hmem
      obtain ⟨coin, hcoin⟩ := Option.isSome_iff_exists.mp (hpassed.available txin hmem)
      rw [hcoin, hpassed.fetched hcoin]
    rw [offeredFee, hcoins, ← hpassed.nFee, hfees, hpassed.nModifiedFees, CTxMemPool.applyDelta,
      toInt_add]
  · have hle := hpassed.sigOpCost.2
    rw [hentry, CTxMemPoolEntry.getTxSize, hpassed.tx_eq,
      toNat_txSize hpassed.checkedTx.size hpassed.sigOpCost.1 hle]
    exact max_le_max hpassed.checkedTx.size (Nat.mul_le_mul_right _ (by omega))
  · intro hash
    rw [hconflicts]
    simpa using mem_conflicts hpassed.conflicts hash
  · rw [hconflicts, hfees, hentry]
    unfold replacementTotals at htotals
    split at htotals
    next hnone => exact .inl ⟨hnone, (congrArg Prod.fst (Except.ok.inj htotals)).symm⟩
    next => exact .inr htotals

theorem checkReplacement_rates {its allConflicting : SetEntries} {nModifiedFees fees : CAmount}
    {nSize : UInt32} {size : UInt64}
    (h : checkReplacement env pool tx its nModifiedFees nSize = .ok (allConflicting, fees, size))
    {hash : UInt256} (hmem : hash ∈ its) {e : CTxMemPoolEntry}
    (he : pool.mapTx.lookup hash = some e) :
    ∃ newFeeRate oldFeeRate, CFeeRate.new nModifiedFees nSize.toNat false = .ok newFeeRate ∧
      CFeeRate.new e.getModifiedFee (e.getTxSize env).toNat true = .ok oldFeeRate ∧
      oldFeeRate.nSatoshisPerK < newFeeRate.nSatoshisPerK := by
  obtain ⟨newFeeRate, hnew, h⟩ := bind_eq_ok.mp h
  obtain ⟨state, hloop, -⟩ := bind_eq_ok.mp h
  obtain ⟨before, after, hstep⟩ := foldlM_step hloop hash hmem
  obtain ⟨e', he', hstep⟩ := bind_eq_ok.mp hstep
  rw [CTxMemPool.deref_eq_ok, he] at he'
  cases he'
  obtain ⟨oldFeeRate, hold, hstep⟩ := bind_eq_ok.mp hstep
  obtain ⟨⟨⟩, hless, -⟩ := bind_eq_ok.mp hstep
  rw [rejectIf_eq_ok, Int64.not_le] at hless
  exact ⟨newFeeRate, oldFeeRate, hnew, hold, hless⟩

end Conflicts

section Rates

def exactFeeRate (nFee : CAmount) (nSize : UInt64) : ℚ :=
  nFee.toInt / nSize.toNat

/-- The rates that the source compares order the two transactions as the exact rates do: the old
one is larger than what the start fee covers and has not been given a negative fee, nothing
overflows, and the size of the new one fits in 32 bits. -/
structure RatesCompared (env : PoolEnv) (ctx : AcceptContext) (pool : CTxMemPool)
    (tx : CTransaction) (e : CTxMemPoolEntry) : Prop where
  large : 1000 < (e.getTxSize env).toNat
  nonneg : 0 ≤ e.getModifiedFee.toInt
  oldFits : e.getModifiedFee.toInt * 1000 < 2 ^ 63
  newFits : Fits (offeredFee env ctx pool tx * 1000)
  sizeFits : maxStandardTxSigOpsCost * env.nBytesPerSigOp.toNat < 2 ^ 32

/-- A greater quotient of the new fee, with the start fee taken off the old size, means a greater
rate. -/
theorem rate_lt_of_quotients {oldFee newFee oldSize newSize : ℤ} (hnonneg : 0 ≤ oldFee)
    (hlarge : 1000 < oldSize) (hpos : 0 < newSize)
    (h : (oldFee * 1000).tdiv (oldSize - 1000) < (newFee * 1000).tdiv newSize) :
    oldFee * newSize < newFee * oldSize := by
  rw [Int.tdiv_eq_ediv_of_nonneg (by positivity)] at h
  set q := oldFee * 1000 / (oldSize - 1000) with hq
  have hqnonneg : 0 ≤ q := Int.ediv_nonneg (by positivity) (by omega)
  have hnewFee : 0 ≤ newFee * 1000 := by
    by_contra hneg
    have hle : 0 ≤ (-(newFee * 1000)).tdiv newSize := Int.tdiv_nonneg (by omega) hpos.le
    rw [Int.neg_tdiv] at hle
    omega
  rw [Int.tdiv_eq_ediv_of_nonneg hnewFee] at h
  have hold : oldFee * 1000 < (q + 1) * (oldSize - 1000) :=
    Int.lt_ediv_add_one_mul_self _ (by omega)
  have hnew : (q + 1) * newSize ≤ newFee * 1000 := (Int.le_ediv_iff_mul_le hpos).mp h
  nlinarith

variable {env : PoolEnv} {ctx : AcceptContext} {args : ATMPArgs} {pool : CTxMemPool}
  {tx : CTransaction} {ws : Workspace} {view : CCoinsViewCache}

/-- Where the source's comparison is one of the exact rates, it makes the rate grow. -/
theorem RatesCompared.rate_lt {newFeeRate oldFeeRate : CFeeRate} {e : CTxMemPoolEntry}
    (hpassed : ReplacementPassed env ctx pool tx ws) (h : RatesCompared env ctx pool tx e)
    (hnew : CFeeRate.new ws.nModifiedFees (ws.entry.nSize env).toNat false = .ok newFeeRate)
    (hold : CFeeRate.new e.getModifiedFee (e.getTxSize env).toNat true = .ok oldFeeRate)
    (hless : oldFeeRate.nSatoshisPerK < newFeeRate.nSatoshisPerK) :
    exactFeeRate e.getModifiedFee (e.getTxSize env) <
      exactFeeRate ws.nModifiedFees (ws.entry.getTxSize env) := by
  obtain ⟨hlarge, hnonneg, holdFits, hnewFits, hsizeFits⟩ := h
  have hfee : ws.nModifiedFees.toInt = offeredFee env ctx pool tx := by
    rw [hpassed.offered]
    unfold Fits at hnewFits
    exact wrap64_of_fits (by omega) (by omega)
  have hsize : (ws.entry.nSize env).toNat = (ws.entry.getTxSize env).toNat := by
    have hle := hpassed.size
    rw [CTxMemPoolEntry.nSize, UInt64.toNat_toUInt32]
    apply Nat.mod_eq_of_lt
    rw [show maxBlockWeight = 1000000 from rfl] at hle
    omega
  obtain ⟨hbytes, rfl⟩ := CFeeRate.new_eq_ok hnew
  obtain ⟨holdBytes, rfl⟩ := CFeeRate.new_eq_ok hold
  rw [← hfee] at hnewFits
  rw [hsize] at hbytes hless
  rw [Int64.lt_iff_toInt_lt, toInt_perKilobyte (by omega) holdFits holdBytes,
    toInt_perKilobyte hnewFits.1 hnewFits.2 hbytes] at hless
  simp only [if_true, Bool.false_eq_true, if_false, Nat.sub_zero] at hless
  have hpos : 0 < (ws.entry.getTxSize env).toNat := by
    by_contra hzero
    have hquotient : 0 ≤ (e.getModifiedFee.toInt * 1000).tdiv
        ((e.getTxSize env).toNat - 1000 : Nat) :=
      Int.tdiv_nonneg (by positivity) (Int.natCast_nonneg _)
    rw [Nat.eq_zero_of_not_pos hzero, Nat.cast_zero, Int.tdiv_zero] at hless
    omega
  rw [Nat.cast_sub hlarge.le] at hless
  have hcross := rate_lt_of_quotients hnonneg (by exact_mod_cast hlarge)
    (by exact_mod_cast hpos) hless
  unfold exactFeeRate
  rw [div_lt_div_iff₀ (by exact_mod_cast (show 0 < (e.getTxSize env).toNat by omega))
    (by exact_mod_cast hpos)]
  exact_mod_cast hcross

/-- An accepted replacement has a higher fee rate than every transaction it conflicts with, if the
source compares the rates of all of them: none is of up to a thousand bytes, which makes its rate
count as zero, or has a negative fee, and no fee overflows. -/
theorem replacement_raisesRate (h : preChecks env ctx args pool tx = .ok (ws, view))
    (hcompared : ∀ hash e, pool.ConflictsWith env tx hash e → RatesCompared env ctx pool tx e) :
    ∀ hash e, pool.ConflictsWith env tx hash e →
      exactFeeRate e.getModifiedFee (e.getTxSize env) <
        exactFeeRate ws.nModifiedFees (ws.entry.getTxSize env) := by
  intro hash e hconflict
  have hpassed := preChecks_replacement h
  have hrates := hcompared hash e hconflict
  obtain ⟨he, hspends⟩ := hconflict
  have hmem : hash ∈ ws.conflicts := (hpassed.conflicts hash).mpr hspends
  rcases hpassed.evicted with ⟨hnone, -⟩ | hevicted
  · rw [← SortedSet.mem_elems, hnone] at hmem
    cases hmem
  · have hiter : hash ∈ pool.getIterSet ws.conflicts.elems := by
      rw [CTxMemPool.getIterSet, SortedSet.mem_ofList, List.mem_filter]
      exact ⟨hmem, by simp [← AList.lookup_isSome, he]⟩
    obtain ⟨newFeeRate, oldFeeRate, hnew, hold, hless⟩ :=
      checkReplacement_rates hevicted hiter he
    exact hrates.rate_lt hpassed hnew hold hless

def sampleRun (txs : List CTransaction) : CTxMemPool :=
  txs.foldl (fun pool tx =>
    ((acceptSingleTransaction samplePoolEnv sampleAccept sampleATMPArgs pool tx).toOption.map
      Prod.snd).getD pool) .empty

def samplePreChecks (pool : CTxMemPool) (tx : CTransaction) :
    Option (CAmount × UInt64 × List UInt256) :=
  (preChecks samplePoolEnv sampleAccept sampleATMPArgs pool tx).toOption.map fun r =>
    (r.1.nModifiedFees, r.1.entry.getTxSize samplePoolEnv, r.1.conflicts.elems)

/-- Two transactions of 1566 bytes: the second one pays more, and has the higher rate. -/
theorem sampleSpend_raisesRate :
    ∃ r, preChecks samplePoolEnv sampleAccept sampleATMPArgs (sampleRun [sampleSpend 200000 1500])
        (sampleSpend 900000 1500) = .ok r ∧
      ∀ hash e, (sampleRun [sampleSpend 200000 1500]).ConflictsWith samplePoolEnv
          (sampleSpend 900000 1500) hash e →
        exactFeeRate e.getModifiedFee (e.getTxSize samplePoolEnv) <
          exactFeeRate r.1.nModifiedFees (r.1.entry.getTxSize samplePoolEnv) := by
  set hash := (sampleSpend 200000 1500).getHash samplePoolEnv.crypto with hhash
  have hchecked : samplePreChecks (sampleRun [sampleSpend 200000 1500]) (sampleSpend 900000 1500) =
      some (900000, 1566, [hash]) := by
    decide +kernel
  have hentry : ((sampleRun [sampleSpend 200000 1500]).mapTx.lookup hash).map
      (fun e => (e.getModifiedFee, e.getTxSize samplePoolEnv)) = some (200000, 1566) := by
    decide +kernel
  have hspender : (sampleRun [sampleSpend 200000 1500]).mapNextTx.lookup ⟨1, 0⟩ =
      some (sampleSpend 200000 1500) := by
    decide +kernel
  cases hpass : preChecks samplePoolEnv sampleAccept sampleATMPArgs
      (sampleRun [sampleSpend 200000 1500]) (sampleSpend 900000 1500) with
  | error stop =>
    rw [samplePreChecks, hpass] at hchecked
    cases hchecked
  | ok r =>
    refine ⟨r, rfl, replacement_raisesRate hpass ?_⟩
    rintro hash' e ⟨he, txin, hmem, next, hnext, rfl⟩
    obtain rfl : txin = { prevout := ⟨1, 0⟩, scriptSig := [], nSequence := 0 } :=
      List.mem_singleton.mp hmem
    rw [hspender] at hnext
    cases hnext
    rw [he] at hentry
    simp only [Option.map_some, Option.some.injEq, Prod.mk.injEq] at hentry
    refine ⟨?_, ?_, ?_, by decide +kernel, by decide⟩
    · rw [hentry.2]
      decide
    · rw [hentry.1]
      decide
    · rw [hentry.1]
      decide

/-- A replacement of 466 bytes for one of 104 bytes: it pays one unit more, at a quarter of the
rate. -/
theorem sampleSpend_lowersRate :
    samplePreChecks (sampleRun [sampleSpend 200000 40]) (sampleSpend 200001 400) =
      some (200001, 466, [(sampleSpend 200000 40).getHash samplePoolEnv.crypto]) ∧
    ((sampleRun [sampleSpend 200000 40]).mapTx.lookup
        ((sampleSpend 200000 40).getHash samplePoolEnv.crypto)).map
      (fun e => (e.getModifiedFee, e.getTxSize samplePoolEnv)) = some (200000, 104) ∧
    exactFeeRate 200001 466 < exactFeeRate 200000 104 := by
  refine ⟨by decide +kernel, by decide +kernel, ?_⟩
  have hnew : exactFeeRate 200001 466 = 200001 / 466 := rfl
  have hold : exactFeeRate 200000 104 = 200000 / 104 := rfl
  rw [hnew, hold]
  norm_num

end Rates

section Fees

variable {env : PoolEnv} {ctx : AcceptContext} {args : ATMPArgs} {pool pool' last : CTxMemPool}
  {tx : CTransaction} {ws : Workspace} {view : CCoinsViewCache}

def CTxMemPool.feeOf (pool : CTxMemPool) (hash : UInt256) : ℤ :=
  ((pool.mapTx.lookup hash).map fun e => e.getModifiedFee.toInt).getD 0

/-- What the transactions of a set pay together, as an exact number. -/
def CTxMemPool.feesOf (pool : CTxMemPool) (its : SetEntries) : ℤ :=
  (its.elems.map pool.feeOf).sum

theorem acceptSingleTransaction_preChecks
    (h : acceptSingleTransaction env ctx args pool tx = .ok (ws, pool')) :
    (∃ view, preChecks env ctx args pool tx = .ok (ws, view)) ∧
      (args.testAccept = false → finalize env ctx args pool tx ws = .ok pool') := by
  obtain ⟨⟨ws', view⟩, hpre, h⟩ := bind_eq_ok.mp h
  obtain ⟨⟨⟩, -, h⟩ := bind_eq_ok.mp h
  split at h
  next htest =>
    cases h
    exact ⟨⟨view, hpre⟩, fun hfalse => absurd htest (by rw [hfalse]; decide)⟩
  next =>
    obtain ⟨pool'', hfinal, h⟩ := bind_eq_ok.mp h
    cases h
    exact ⟨⟨view, hpre⟩, fun _ => mapError_eq_ok.mp hfinal⟩

/-- The transactions that are evicted are in the pool, and their fees have been added up in 64
bits. -/
theorem checkReplacement_fees {its allConflicting : SetEntries} {nModifiedFees fees : CAmount}
    {nSize : UInt32} {size : UInt64}
    (h : checkReplacement env pool tx its nModifiedFees nSize = .ok (allConflicting, fees, size)) :
    (∀ hash ∈ allConflicting, hash ∈ pool.mapTx) ∧ wrap64 (pool.feesOf allConflicting) ≤
      nModifiedFees.toInt := by
  obtain ⟨newFeeRate, -, h⟩ := bind_eq_ok.mp h
  obtain ⟨state, -, h⟩ := bind_eq_ok.mp h
  obtain ⟨-, -, h⟩ := bind_eq_ok.mp h
  obtain ⟨set, -, h⟩ := bind_eq_ok.mp h
  obtain ⟨⟨nConflictingFees, nConflictingSize⟩, htotals, h⟩ := bind_eq_ok.mp h
  obtain ⟨-, -, h⟩ := bind_eq_ok.mp h
  obtain ⟨⟨⟩, hpays, h⟩ := bind_eq_ok.mp h
  cases h
  rw [rejectIf_eq_ok, Int64.not_lt, Int64.le_iff_toInt_le] at hpays
  obtain ⟨evicted, hevicted, htotals⟩ := bind_eq_ok.mp htotals
  cases htotals
  have hfees : ∀ (l : List UInt256) (evicted : List CTxMemPoolEntry),
      l.mapM pool.deref = .ok evicted →
      (∀ hash ∈ l, hash ∈ pool.mapTx) ∧
        (evicted.map fun e => e.getModifiedFee.toInt) = l.map pool.feeOf := by
    intro l
    induction l with
    | nil =>
      intro evicted h
      cases h
      simp
    | cons hash rest ih =>
      intro evicted h
      rw [List.mapM_cons] at h
      obtain ⟨e, he, h⟩ := bind_eq_ok.mp h
      obtain ⟨more, hmore, h⟩ := bind_eq_ok.mp h
      cases h
      rw [CTxMemPool.deref_eq_ok] at he
      obtain ⟨hmem, hrest⟩ := ih more hmore
      refine ⟨List.forall_mem_cons.mpr ⟨?_, hmem⟩, ?_⟩
      · rw [← AList.lookup_isSome, he]
        rfl
      · rw [List.map_cons, List.map_cons, hrest, CTxMemPool.feeOf, he]
        rfl
  obtain ⟨hmem, hsum⟩ := hfees _ _ hevicted
  refine ⟨hmem, ?_⟩
  rw [toInt_sum, List.map_map] at hpays
  unfold CTxMemPool.feesOf
  rw [← hsum]
  exact hpays

theorem ReplacementPassed.evicted_mem (h : ReplacementPassed env ctx pool tx ws) :
    ∀ hash ∈ ws.allConflicting, hash ∈ pool.mapTx := by
  rcases h.evicted with ⟨-, hnone⟩ | hevicted
  · rw [hnone]
    simp
  · exact (checkReplacement_fees hevicted).1

/-- The replacement pays for what it evicts: the sum does not overflow, and is not just matched. -/
def Workspace.PaysMore (pool : CTxMemPool) (ws : Workspace) : Prop :=
  pool.feesOf ws.allConflicting < 2 ^ 63 ∧ ws.nModifiedFees.toInt ≠ pool.feesOf ws.allConflicting

theorem ReplacementPassed.pays_iff (h : ReplacementPassed env ctx pool tx ws)
    (hconflicts : ws.conflicts.elems ≠ []) :
    pool.feesOf ws.allConflicting < ws.nModifiedFees.toInt ↔ ws.PaysMore pool := by
  rcases h.evicted with ⟨hnone, -⟩ | hevicted
  · exact absurd hnone hconflicts
  · have hpays := (checkReplacement_fees hevicted).2
    have hlt := ws.nModifiedFees.toInt_lt
    have hle := ws.nModifiedFees.le_toInt
    unfold Workspace.PaysMore
    constructor
    · intro hless
      exact ⟨by omega, by omega⟩
    · rintro ⟨hfits, hne⟩
      by_cases hlow : -2 ^ 63 ≤ pool.feesOf ws.allConflicting
      · rw [wrap64_of_fits hlow hfits] at hpays
        omega
      · omega

/-- A replacement takes out what it evicts and puts itself in; trimming may take out more. -/
theorem finalize_contents (hpassed : ReplacementPassed env ctx pool tx ws)
    (h : finalize env ctx args pool tx ws = .ok pool') (hash : UInt256) :
    pool'.contents hash = none ∨
      hash = tx.getHash env.crypto ∧ pool'.contents hash =
        some { ws.entry.content with
          feeDelta := (pool.mapDeltas.lookup (tx.getHash env.crypto)).getD 0 } ∨
      hash ≠ tx.getHash env.crypto ∧ hash ∉ ws.allConflicting ∧
        pool'.contents hash = pool.contents hash := by
  obtain ⟨mid, hremoved, h⟩ := bind_eq_ok.mp h
  obtain ⟨added, hadded, h⟩ := bind_eq_ok.mp h
  obtain ⟨hcontents, hdeltas⟩ := CTxMemPool.removeStaged_contents hremoved
  have hfresh : ws.entry.tx.getHash env.crypto ∉ mid.mapTx := by
    rw [hpassed.tx_eq, CTxMemPool.mem_mapTx_iff, hcontents]
    have hnot := hpassed.fresh
    rw [CTxMemPool.mem_mapTx_iff] at hnot
    split
    · simp
    · exact hnot
  obtain ⟨hcontents', -⟩ := CTxMemPool.addUnchecked_contents hfresh hpassed.feeDelta hadded
  rw [hpassed.tx_eq, hdeltas] at hcontents'
  have htrim : CTxMemPool.Shrinks added pool' := by
    unfold trimAfterAccept at h
    split at h
    · cases h
      exact .refl _
    · obtain ⟨limited, hlimited, h⟩ := bind_eq_ok.mp h
      obtain ⟨⟨⟩, -, h⟩ := bind_eq_ok.mp h
      cases h
      obtain ⟨expired, hexpired, hlimited⟩ := bind_eq_ok.mp hlimited
      exact (CTxMemPool.Shrinks.removeWithDescendants hexpired).trans
        (CTxMemPool.Shrinks.trimToSize hlimited)
  rcases htrim.contents hash with hnone | hsame
  · exact .inl hnone
  · rw [hsame, hcontents']
    rcases eq_or_ne hash (tx.getHash env.crypto) with rfl | hne
    · exact .inr (.inl ⟨rfl, Function.update_self ..⟩)
    · rw [Function.update_of_ne hne, hcontents]
      split
      · exact .inl rfl
      next hkept => exact .inr (.inr ⟨hne, hkept, rfl⟩)

/-- A set that has exchanged some elements for a new one has fewer elements than before, or as many
and a greater sum, when the new one is worth more than the others. -/
theorem exchange_progress {α : Type} [DecidableEq α] {s t r : Finset α} {a : α} {f : α → ℤ}
    (hnew : a ∉ s) (hr : r ⊆ s) (hsome : r.Nonempty) (ht : t ⊆ insert a (s \ r))
    (hless : ∑ b ∈ r, f b < f a) :
    t.card < s.card ∨ t.card = s.card ∧ ∑ b ∈ s, f b < ∑ b ∈ t, f b := by
  have hnot : a ∉ s \ r := fun hmem => hnew (Finset.mem_sdiff.mp hmem).1
  have hcard : (insert a (s \ r)).card ≤ s.card := by
    rw [Finset.card_insert_of_notMem hnot, Finset.card_sdiff_of_subset hr]
    have hpos := hsome.card_pos
    have hle := Finset.card_le_card hr
    omega
  rcases lt_or_eq_of_le ((Finset.card_le_card ht).trans hcard) with hlt | heq
  · exact .inl hlt
  · have ht : t = insert a (s \ r) := Finset.eq_of_subset_of_card_le ht (by omega)
    refine .inr ⟨heq, ?_⟩
    have hsplit := Finset.sum_sdiff hr (f := f)
    rw [ht, Finset.sum_insert hnot]
    omega

/-- The fees of the pool are those of the given table, for every transaction the same whenever it
is in the pool. -/
def CTxMemPool.FeesAre (table : UInt256 → ℤ) (pool : CTxMemPool) : Prop :=
  ∀ hash ∈ pool.hashes, pool.feeOf hash = table hash

/-- Replacements one after the other: each transaction is accepted, evicts something, pays more
than that, and its fee, with the delta for its hash, is the one of the table. -/
inductive Replaces (env : PoolEnv) (table : UInt256 → ℤ) :
    CTxMemPool → List CTransaction → CTxMemPool → Prop
  | done (pool : CTxMemPool) : Replaces env table pool [] pool
  | next {ctx : AcceptContext} {args : ATMPArgs} {pool pool' last : CTxMemPool} {tx : CTransaction}
      {ws : Workspace} {txs : List CTransaction}
      (accepted : acceptSingleTransaction env ctx args pool tx = .ok (ws, pool'))
      (stored : args.testAccept = false) (evicts : ws.allConflicting.elems ≠ [])
      (pays : ws.PaysMore pool) (fee : ws.nModifiedFees.toInt = table (tx.getHash env.crypto))
      (rest : Replaces env table pool' txs last) : Replaces env table pool (tx :: txs) last

theorem CTxMemPool.feeOf_contents (pool : CTxMemPool) (hash : UInt256) :
    pool.feeOf hash = ((pool.contents hash).map fun e => e.getModifiedFee.toInt).getD 0 := by
  rw [contents, Option.map_map]
  rfl

theorem replacement_progress {table : UInt256 → ℤ}
    (h : acceptSingleTransaction env ctx args pool tx = .ok (ws, pool'))
    (hstored : args.testAccept = false) (hevicts : ws.allConflicting.elems ≠ [])
    (hpays : ws.PaysMore pool) (hfee : ws.nModifiedFees.toInt = table (tx.getHash env.crypto))
    (hfees : pool.FeesAre table) :
    pool'.FeesAre table ∧ (pool'.hashes.card < pool.hashes.card ∨
      pool'.hashes.card = pool.hashes.card ∧
        ∑ hash ∈ pool.hashes, table hash < ∑ hash ∈ pool'.hashes, table hash) := by
  obtain ⟨⟨view, hpre⟩, hfinal⟩ := acceptSingleTransaction_preChecks h
  have hpassed := preChecks_replacement hpre
  have hcontents := finalize_contents hpassed (hfinal hstored)
  have hconflicts : ws.conflicts.elems ≠ [] := by
    rcases hpassed.evicted with ⟨-, hnone⟩ | hevicted
    · rw [hnone] at hevicts
      exact absurd rfl hevicts
    · intro hnone
      rw [hnone] at hevicted
      obtain ⟨newFeeRate, -, hevicted⟩ := bind_eq_ok.mp hevicted
      obtain ⟨state, -, hevicted⟩ := bind_eq_ok.mp hevicted
      obtain ⟨-, -, hevicted⟩ := bind_eq_ok.mp hevicted
      obtain ⟨set, hset, hevicted⟩ := bind_eq_ok.mp hevicted
      cases hset
      obtain ⟨totals, -, hevicted⟩ := bind_eq_ok.mp hevicted
      obtain ⟨-, -, hevicted⟩ := bind_eq_ok.mp hevicted
      obtain ⟨-, -, hevicted⟩ := bind_eq_ok.mp hevicted
      simp only [pure, Except.pure, Except.ok.injEq, Prod.mk.injEq] at hevicted
      rw [← hevicted.1] at hevicts
      exact hevicts rfl
  constructor
  · intro hash hmem
    rw [CTxMemPool.mem_hashes] at hmem
    rcases hcontents hash with hnone | ⟨rfl, hnew⟩ | ⟨-, -, hsame⟩
    · rw [hnone] at hmem
      cases hmem
    · rw [CTxMemPool.feeOf_contents, hnew, ← hfee, hpassed.nModifiedFees]
      rfl
    · rw [CTxMemPool.feeOf_contents, hsame, ← CTxMemPool.feeOf_contents]
      apply hfees
      rwa [CTxMemPool.mem_hashes, ← hsame]
  · apply exchange_progress (a := tx.getHash env.crypto) (r := ws.allConflicting.toFinset)
    · rw [CTxMemPool.mem_hashes, ← CTxMemPool.mem_mapTx_iff]
      exact hpassed.fresh
    · intro hash hmem
      rw [CTxMemPool.mem_hashes, ← CTxMemPool.mem_mapTx_iff]
      exact hpassed.evicted_mem hash (SortedSet.mem_toFinset.mp hmem)
    · obtain ⟨hash, hmem⟩ := List.exists_mem_of_ne_nil _ hevicts
      exact ⟨hash, SortedSet.mem_toFinset.mpr hmem⟩
    · intro hash hmem
      rw [CTxMemPool.mem_hashes] at hmem
      rw [Finset.mem_insert, Finset.mem_sdiff, CTxMemPool.mem_hashes, SortedSet.mem_toFinset]
      rcases hcontents hash with hnone | ⟨rfl, -⟩ | ⟨-, hkept, hsame⟩
      · rw [hnone] at hmem
        cases hmem
      · exact .inl rfl
      · exact .inr ⟨by rwa [← hsame], hkept⟩
    · have hsum : ∑ hash ∈ ws.allConflicting.toFinset, table hash =
          pool.feesOf ws.allConflicting := by
        rw [CTxMemPool.feesOf, SortedSet.sum_elems]
        refine Finset.sum_congr rfl fun hash hmem => (hfees hash ?_).symm
        rw [CTxMemPool.mem_hashes, ← CTxMemPool.mem_mapTx_iff]
        exact hpassed.evicted_mem hash (SortedSet.mem_toFinset.mp hmem)
      rw [hsum, ← hfee]
      exact (hpassed.pays_iff hconflicts).mpr hpays

theorem Replaces.progress {table : UInt256 → ℤ} {txs : List CTransaction}
    (h : Replaces env table pool txs last) (hfees : pool.FeesAre table) :
    last.FeesAre table ∧ (txs ≠ [] → last.hashes.card < pool.hashes.card ∨
      last.hashes.card = pool.hashes.card ∧
        ∑ hash ∈ pool.hashes, table hash < ∑ hash ∈ last.hashes, table hash) := by
  induction h with
  | done pool => exact ⟨hfees, fun hne => absurd rfl hne⟩
  | next accepted stored evicts pays fee rest ih =>
    obtain ⟨hfees', hstep⟩ := replacement_progress accepted stored evicts pays fee hfees
    obtain ⟨hlast, hrest⟩ := ih hfees'
    refine ⟨hlast, fun _ => ?_⟩
    cases rest with
    | done => exact hstep
    | next =>
      have hmore := hrest (List.cons_ne_nil _ _)
      omega

/-- A replacement pays more than everything it evicts exactly when the fees of these do not
overflow and are not just matched; and while that is so, no content of the pool comes back. -/
theorem replacement_pays_iff (env : PoolEnv) :
    (∀ ctx args pool tx ws pool', acceptSingleTransaction env ctx args pool tx = .ok (ws, pool') →
      ws.conflicts.elems ≠ [] →
      (pool.feesOf ws.allConflicting < ws.nModifiedFees.toInt ↔ ws.PaysMore pool)) ∧
    ∀ table pool first mid more last, pool.FeesAre table → Replaces env table pool first mid →
      Replaces env table mid more last → more ≠ [] → last.hashes ≠ mid.hashes := by
  constructor
  · intro ctx args pool tx ws pool' haccept hconflicts
    obtain ⟨⟨view, hpre⟩, -⟩ := acceptSingleTransaction_preChecks haccept
    exact (preChecks_replacement hpre).pays_iff hconflicts
  · intro table pool first mid more last hfees hfirst hmore hne hsame
    obtain ⟨hmid, -⟩ := hfirst.progress hfees
    obtain ⟨-, hprogress⟩ := hmore.progress hmid
    have hstep := hprogress hne
    rw [hsame] at hstep
    omega

def sampleAccepted (pool : CTxMemPool) (tx : CTransaction) : Option (List UInt256 × ℤ × ℤ) :=
  (acceptSingleTransaction samplePoolEnv sampleAccept sampleATMPArgs pool tx).toOption.map fun r =>
    (r.1.allConflicting.elems, r.1.nModifiedFees.toInt, pool.feesOf r.1.allConflicting)

/-- One unit more is enough. -/
theorem sampleSpend_paysMore :
    ∃ r, acceptSingleTransaction samplePoolEnv sampleAccept sampleATMPArgs
        (sampleRun [sampleSpend 200000 40]) (sampleSpend 200001 40) = .ok r ∧
      (sampleRun [sampleSpend 200000 40]).feesOf r.1.allConflicting < r.1.nModifiedFees.toInt ∧
      r.2.hashes ≠ (sampleRun [sampleSpend 200000 40]).hashes := by
  set before := sampleRun [sampleSpend 200000 40] with hbefore
  have haccepted : sampleAccepted before (sampleSpend 200001 40) =
      some ([(sampleSpend 200000 40).getHash samplePoolEnv.crypto], 200001, 200000) := by
    decide +kernel
  have hnew : (sampleSpend 200001 40).getHash samplePoolEnv.crypto ∉ before.hashes := by
    decide +kernel
  cases hpass : acceptSingleTransaction samplePoolEnv sampleAccept sampleATMPArgs before
      (sampleSpend 200001 40) with
  | error stop =>
    rw [sampleAccepted, hpass] at haccepted
    cases haccepted
  | ok r =>
    rw [sampleAccepted, hpass] at haccepted
    simp only [Except.toOption, Option.map_some, Option.some.injEq, Prod.mk.injEq] at haccepted
    obtain ⟨hevicted, hfee, hfees⟩ := haccepted
    have hpays : r.1.PaysMore before := by
      unfold Workspace.PaysMore
      rw [hfee, hfees]
      decide
    have hevicts : r.1.allConflicting.elems ≠ [] := by
      rw [hevicted]
      exact List.cons_ne_nil _ _
    refine ⟨r, rfl, by rw [hfee, hfees]; decide, ?_⟩
    let table := fun hash =>
      if hash = (sampleSpend 200001 40).getHash samplePoolEnv.crypto then 200001
      else before.feeOf hash
    have htable : before.FeesAre table := by
      intro hash hmem
      have hne : hash ≠ (sampleSpend 200001 40).getHash samplePoolEnv.crypto := by
        rintro rfl
        exact hnew hmem
      exact (if_neg hne).symm
    have hstep : Replaces samplePoolEnv table before [sampleSpend 200001 40] r.2 :=
      .next hpass rfl hevicts hpays (hfee.trans (if_pos rfl).symm) (.done _)
    exact (replacement_pays_iff samplePoolEnv).2 table before [] before [sampleSpend 200001 40] r.2
      htable (.done _) hstep (List.cons_ne_nil _ _)

/-- Two transactions with the same fee replace each other, so that the pool is what it was. -/
theorem sampleSpend_comesBack :
    sampleAccepted (sampleRun [sampleSpend 200000 40]) (sampleSpend 200000 41) =
      some ([(sampleSpend 200000 40).getHash samplePoolEnv.crypto], 200000, 200000) ∧
    (sampleRun [sampleSpend 200000 40, sampleSpend 200000 41]).mapTx.keys =
      [(sampleSpend 200000 41).getHash samplePoolEnv.crypto] ∧
    (sampleRun [sampleSpend 200000 40, sampleSpend 200000 41, sampleSpend 200000 40]).mapTx.keys =
      (sampleRun [sampleSpend 200000 40]).mapTx.keys := by
  decide +kernel

end Fees

end Verium
