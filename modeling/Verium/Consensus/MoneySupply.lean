import Verium.Consensus.Accounting
import Verium.Consensus.SpendRules

/-!
The money supply along a run of connected blocks. The coinbase bound of `ConnectBlock` is
exact as long as the fees of a block, which are negative for a transaction that pays out
more than it takes in, do not wrap below the 64-bit range.
-/

namespace Verium

open Lib

section OneBlock

variable {env : ConnectEnv} {block : CBlock} {pindex prev : CBlockIndex}
  {view : CCoinsViewCache} {cache : List UInt256} {res : Connected}

/-- What the end of `ConnectBlock` has tested and left, when the block is really connected. -/
theorem finishBlock_ok {s : ConnectState} {coinbase : CTransaction} {rest : List CTransaction}
    (hvtx : block.vtx = coinbase :: rest)
    (h : finishBlock env block pindex prev s false = .ok res) :
    OutputsInRange coinbase.vout ∧
      outputSum coinbase.vout ≤ (calculateMinerReward env.float prev + s.nFees).toInt ∧
      res.view = s.view.setBestBlock pindex.hashBlock ∧
      res.pindex.nHeight = pindex.nHeight ∧ res.pindex.nBits = pindex.nBits ∧
      res.pindex.nMoneySupply = prev.nMoneySupply + s.nValueOut - s.nValueIn := by
  simp only [finishBlock, hvtx] at h
  obtain ⟨value, hvalue, h⟩ := bind_eq_ok.mp h
  obtain ⟨hrange, hsum⟩ := getValueOut_eq_ok.mp hvalue
  obtain ⟨_, hreward, h⟩ := bind_eq_ok.mp h
  cases h
  rw [rejectIf_eq_ok, Int64.lt_iff_toInt_lt, not_lt, hsum] at hreward
  exact ⟨hrange, hreward, rfl, rfl, rfl, rfl⟩

/-- What a connected block does to the value of the ledger. -/
structure BlockAccount (crypto : Crypto) (float : FloatCode) (utxo : UtxoSet)
    (prev pindex : CBlockIndex) (vtx : List CTransaction) (res : Connected) : Prop where
  ledger : res.view.utxo = applyTxs crypto pindex.nHeight utxo vtx
  flagsSound : res.view.FlagsSound
  height : res.pindex.nHeight = pindex.nHeight
  target : res.pindex.nBits = pindex.nBits
  finite : FiniteEntries res.view.utxo
  /-- The value created is what the coinbase pays less the fees, and the coinbase pays at
  most what the reward and the fees come to in 64 bits. -/
  created : ∃ paid, 0 ≤ paid ∧
    paid ≤ wrap64 ((calculateMinerReward float prev).toInt +
      netFees crypto pindex.nHeight utxo vtx) ∧
    utxoValue res.view.utxo + blockUnspendable vtx =
      utxoValue utxo + paid - netFees crypto pindex.nHeight utxo vtx
  moneySupply : res.pindex.nMoneySupply.toInt =
    wrap64 (prev.nMoneySupply.toInt +
      (utxoValue res.view.utxo + blockUnspendable vtx - utxoValue utxo))

theorem connectBlock_account (hflag : FCheckedSound block) (hsound : view.FlagsSound)
    (hfinite : FiniteEntries view.utxo)
    (hgenesis : block.getHash env.crypto ≠ env.params.hashGenesisBlock)
    (h : connectBlock env block pindex (some prev) view cache false = .ok res) :
    BlockAccount env.crypto env.float view.utxo prev pindex block.vtx res := by
  obtain ⟨hchecked, prev', s, fChecked, hprev, -, -, hloop, hfinish⟩ :=
    connectBlock_ok hflag hgenesis h
  cases hprev
  obtain ⟨coinbase, rest, hvtx, hcoinbase, hrest⟩ := hchecked.coinbase
  have hinv := connectTxs_inv hchecked.checked hsound (fun _ hmem => hmem) hloop
  have hsums := connectTxs_sums hchecked hsound hfinite (List.append_nil _).symm hloop
  have hvtx' : ({ block with fChecked } : CBlock).vtx = coinbase :: rest := hvtx
  obtain ⟨hrange, hreward, hview, hheight, hbits, hsupply⟩ := finishBlock_ok hvtx' hfinish
  have hutxo : res.view.utxo = applyTxs env.crypto pindex.nHeight view.utxo block.vtx := by
    rw [hview]
    exact hinv.utxo
  have hfees := netFees_eq env.crypto pindex.nHeight hcoinbase hrest view.utxo
  rw [← hvtx] at hfees
  have hvalue := hsums.value
  refine ⟨hutxo, ?_, hheight, hbits, ?_, ⟨outputSum coinbase.vout, ?_, ?_, ?_⟩, ?_⟩
  · rw [hview]
    exact hinv.flagsSound
  · rw [hutxo]
    exact hsums.finite
  · exact outputSum_nonneg hrange.nonneg
  · rw [toInt_add, hsums.nFees, wrap64_add_wrap64] at hreward
    exact hreward
  · rw [hutxo]
    omega
  · rw [hutxo, hsupply, toInt_sub, toInt_add, hsums.nValueIn, hsums.nValueOut,
      wrap64_add_wrap64, wrap64_wrap64_sub, wrap64_sub_wrap64]
    congr 1
    omega

end OneBlock

section Nonneg

variable {crypto : Crypto} {nHeight : Nat} {utxo : UtxoSet}

/-- No coin of the ledger has a negative value. -/
def NonnegCoins (utxo : UtxoSet) : Prop :=
  ∀ o coin, utxo o = some coin → 0 ≤ coinValue coin

theorem NonnegCoins.applyTx {tx : CTransaction} (h : NonnegCoins utxo)
    (hrange : OutputsInRange tx.vout) : NonnegCoins (applyTx crypto nHeight utxo tx) := by
  intro o coin hcoin
  rcases insertAll_eq_some hcoin with hold | hnew
  · exact h o coin (eraseAll_eq_some hold)
  · obtain ⟨output, hmem, hcreated⟩ := List.mem_filterMap.mp hnew
    obtain ⟨-, -, rfl⟩ := createdCoin_eq_some hcreated
    exact hrange.nonneg output.1 (List.fst_mem_of_mem_zipIdx hmem)

theorem NonnegCoins.applyTxs {txs : List CTransaction} (h : NonnegCoins utxo)
    (hrange : ∀ tx ∈ txs, OutputsInRange tx.vout) :
    NonnegCoins (applyTxs crypto nHeight utxo txs) := by
  induction txs generalizing utxo with
  | nil => exact h
  | cons tx rest ih =>
      rw [List.forall_mem_cons] at hrange
      exact ih (h.applyTx hrange.1) hrange.2

theorem blockUnspendable_nonneg {txs : List CTransaction}
    (hrange : ∀ tx ∈ txs, OutputsInRange tx.vout) : 0 ≤ blockUnspendable txs := by
  apply List.sum_nonneg
  intro x hx
  obtain ⟨tx, hmem, rfl⟩ := List.mem_map.mp hx
  refine outputSum_nonneg fun txout htxout => ?_
  exact (hrange tx hmem).nonneg txout (List.mem_of_mem_filter htxout)

end Nonneg

section Runs

variable (crypto : Crypto) (float : FloatCode)

/-- The ledger, the value of all provably unspendable outputs so far, and the tip. -/
structure SupplyState where
  utxo : UtxoSet
  unspendable : ℤ
  tip : CBlockIndex

noncomputable def SupplyState.supply (s : SupplyState) : ℤ :=
  utxoValue s.utxo + s.unspendable

/-- One block connected on the tip, by a node with any settings and through any view of the
ledger: between blocks the cache may have been flushed. -/
def ConnectsTo (s : SupplyState) (block : CBlock) (s' : SupplyState) : Prop :=
  ∃ (env : ConnectEnv) (pindex : CBlockIndex) (view : CCoinsViewCache) (cache : List UInt256)
    (res : Connected),
    env.crypto = crypto ∧ env.float = float ∧ view.utxo = s.utxo ∧ view.FlagsSound ∧
    MarkedByCheckBlock crypto block ∧ block.getHash crypto ≠ env.params.hashGenesisBlock ∧
    pindex.nHeight = s.tip.nHeight + 1 ∧ pindex.nBits = block.nBits ∧
    connectBlock env block pindex (some s.tip) view cache false = .ok res ∧
    s' = ⟨res.view.utxo, s.unspendable + blockUnspendable block.vtx, res.pindex⟩

/-- The blocks connected since genesis, latest first, each with the states around it. The
coinbase of the genesis block never enters the ledger. -/
inductive SupplyRun : List (SupplyState × CBlock × SupplyState) → SupplyState → Prop where
  | genesis {tip : CBlockIndex} : tip.nHeight = 0 → tip.nMoneySupply = 0 →
      SupplyRun [] ⟨fun _ => none, 0, tip⟩
  | connect {history : List (SupplyState × CBlock × SupplyState)} {s s' : SupplyState}
      {block : CBlock} : SupplyRun history s → ConnectsTo crypto float s block s' →
      SupplyRun ((s, block, s') :: history) s'

/-- A block mints at most the reward, and the index entry knows the supply. -/
def SupplyLaw (before after : SupplyState) : Prop :=
  after.supply ≤ before.supply + (calculateMinerReward float before.tip).toInt ∧
    after.supply = after.tip.nMoneySupply.toInt

/-- The reward and the exact fees of a block do not fall below the 64-bit range. -/
def FeesFit (before : SupplyState) (block : CBlock) : Prop :=
  -2 ^ 63 ≤ (calculateMinerReward float before.tip).toInt +
    netFees crypto (before.tip.nHeight + 1) before.utxo block.vtx

/-- For targets in the range of `CheckProofOfWork` the two reward schedules pay at most thirty
coins a block. The block time is longest for the easiest target, 369 seconds, and the larger
schedule then pays 18.07 coins. -/
def RewardsBounded : Prop :=
  ∀ nBits, targetInRange nBits = true → let t := float.calculateBlocktime nBits
    (float.earlyReward t).toInt ≤ 3000000000 ∧ (float.lateReward t).toInt ≤ 3000000000

variable {crypto float}

theorem ConnectsTo.account {s s' : SupplyState} {block : CBlock}
    (h : ConnectsTo crypto float s block s') (hfinite : FiniteEntries s.utxo) :
    CheckedBlock block.vtx ∧ FiniteEntries s'.utxo ∧
      s'.utxo = applyTxs crypto (s.tip.nHeight + 1) s.utxo block.vtx ∧
      s'.unspendable = s.unspendable + blockUnspendable block.vtx ∧
      s'.tip.nHeight = s.tip.nHeight + 1 ∧ targetInRange s'.tip.nBits = true ∧
      s'.tip.nMoneySupply.toInt = wrap64 (s.tip.nMoneySupply.toInt + (s'.supply - s.supply)) ∧
      ∃ paid, 0 ≤ paid ∧
        paid ≤ wrap64 ((calculateMinerReward float s.tip).toInt +
          netFees crypto (s.tip.nHeight + 1) s.utxo block.vtx) ∧
        s'.supply = s.supply + paid - netFees crypto (s.tip.nHeight + 1) s.utxo block.vtx := by
  obtain ⟨env, pindex, view, cache, res, rfl, rfl, hutxo, hsound, hmark, hgenesis, hheight,
    hbits, hconnect, rfl⟩ := h
  rw [← hutxo] at hfinite
  have haccount := connectBlock_account hmark.fCheckedSound hsound hfinite hgenesis hconnect
  obtain ⟨hchecked, -⟩ := connectBlock_ok hmark.fCheckedSound hgenesis hconnect
  have hrange : targetInRange res.pindex.nBits = true := by
    rw [haccount.target, hbits]
    obtain ⟨-, -, hconnect⟩ := bind_eq_ok.mp hconnect
    obtain ⟨_, hcheck, -⟩ := bind_eq_ok.mp hconnect
    exact hmark.targetInRange (checkBlockAgain_ok hcheck)
  have hnext := haccount.height
  rw [hheight] at hnext
  obtain ⟨paid, hpos, hbound, hvalue⟩ := haccount.created
  have hsupply := haccount.moneySupply
  have hledger := haccount.ledger
  rw [hutxo, hheight] at hbound hvalue hledger
  rw [hutxo] at hsupply
  unfold SupplyState.supply
  dsimp only
  refine ⟨hchecked, haccount.finite, hledger, rfl, hnext, hrange, ?_, paid, hpos, hbound,
    by omega⟩
  rw [hsupply]
  congr 1
  ring

theorem SupplyRun.finite {history : List (SupplyState × CBlock × SupplyState)}
    {s : SupplyState} (h : SupplyRun crypto float history s) : FiniteEntries s.utxo := by
  induction h with
  | genesis => simp [FiniteEntries]
  | connect _ hstep ih => exact (hstep.account ih).2.1

/-- The law for one step makes the fees of its block fit: a coinbase pays nothing negative. -/
theorem ConnectsTo.feesFit {s s' : SupplyState} {block : CBlock}
    (h : ConnectsTo crypto float s block s') (hfinite : FiniteEntries s.utxo)
    (hlaw : SupplyLaw float s s') : FeesFit crypto float s block := by
  obtain ⟨-, -, -, -, -, -, -, paid, hpos, -, hvalue⟩ := h.account hfinite
  have hmint := hlaw.1
  unfold FeesFit
  omega

theorem ConnectsTo.mint_le {s s' : SupplyState} {block : CBlock}
    (h : ConnectsTo crypto float s block s') (hfinite : FiniteEntries s.utxo)
    (hfit : FeesFit crypto float s block) :
    s'.supply ≤ s.supply + (calculateMinerReward float s.tip).toInt := by
  obtain ⟨-, -, -, -, -, -, -, paid, -, hbound, hvalue⟩ := h.account hfinite
  have hexact := wrap64_le hfit
  omega

theorem calculateMinerReward_le (hrewards : RewardsBounded float) {tip : CBlockIndex}
    (hrange : tip.nHeight ≠ 0 → targetInRange tip.nBits = true) :
    (calculateMinerReward float tip).toInt ≤
      if tip.nHeight = 0 then 56470500000000 else 3000000000 := by
  unfold calculateMinerReward
  by_cases hheight : tip.nHeight = 0
  · simp only [hheight, zero_add, if_true]
    decide
  · obtain ⟨hearly, hlate⟩ := hrewards tip.nBits (hrange hheight)
    have hne : tip.nHeight + 1 ≠ 1 := by omega
    simp only [hheight, hne, if_false]
    split
    · exact hlate
    · exact hearly

/-- What holds in every state of a run whose blocks all have fees that fit. -/
structure SupplySound (s : SupplyState) : Prop where
  coins : NonnegCoins s.utxo
  unspendable : 0 ≤ s.unspendable
  /-- The reward on genesis does not depend on its target. -/
  target : s.tip.nHeight ≠ 0 → targetInRange s.tip.nBits = true
  known : s.supply = s.tip.nMoneySupply.toInt
  bounded : s.supply ≤
    (if s.tip.nHeight = 0 then 0 else 56470500000000) + 3000000000 * s.tip.nHeight

theorem SupplySound.supply_nonneg {s : SupplyState} (hcoins : NonnegCoins s.utxo)
    (hunspendable : 0 ≤ s.unspendable) : 0 ≤ s.supply := by
  have hvalue : 0 ≤ utxoValue s.utxo := total_nonneg coinValue hcoins
  unfold SupplyState.supply
  omega

theorem SupplySound.step {s s' : SupplyState} {block : CBlock} (hrewards : RewardsBounded float)
    (hs : SupplySound s) (hfinite : FiniteEntries s.utxo)
    (h : ConnectsTo crypto float s block s') (hheight : s'.tip.nHeight < 2 ^ 31)
    (hfit : FeesFit crypto float s block) : SupplySound s' := by
  have hmint := h.mint_le hfinite hfit
  have hreward := calculateMinerReward_le hrewards hs.target
  obtain ⟨hchecked, -, hutxo, hunspendable, hnext, hrange, hsupply, -⟩ := h.account hfinite
  have hranges : ∀ tx ∈ block.vtx, OutputsInRange tx.vout :=
    fun tx hmem => (hchecked.checked tx hmem).outputs
  have hcoins : NonnegCoins s'.utxo := by
    rw [hutxo]
    exact hs.coins.applyTxs hranges
  have hunspendable' : 0 ≤ s'.unspendable := by
    have hnew := blockUnspendable_nonneg hranges
    have hold := hs.unspendable
    omega
  have hnonneg := SupplySound.supply_nonneg hcoins hunspendable'
  have hbounded := hs.bounded
  have hbounded' : s'.supply ≤
      (if s'.tip.nHeight = 0 then 0 else 56470500000000) + 3000000000 * s'.tip.nHeight := by
    rw [hnext]
    rw [if_neg (Nat.succ_ne_zero _)]
    by_cases hzero : s.tip.nHeight = 0
    · rw [if_pos hzero] at hbounded hreward
      omega
    · rw [if_neg hzero] at hbounded hreward
      omega
  refine ⟨hcoins, hunspendable', fun _ => hrange, ?_, hbounded'⟩
  -- thirty coins for each of less than `2 ^ 31` blocks stay within 64 bits
  have hlt : s'.supply < 2 ^ 63 := by
    split at hbounded' <;> omega
  rw [hsupply, ← hs.known, add_sub_cancel, wrap64_of_fits (by omega) hlt]

/-- Along a run from genesis, every block obeys the law exactly when the fees of every block
fit. -/
theorem supplyLaw_iff_feesFit {history : List (SupplyState × CBlock × SupplyState)}
    {s : SupplyState} (hrewards : RewardsBounded float) (hrun : SupplyRun crypto float history s)
    (hheight : s.tip.nHeight < 2 ^ 31) :
    (∀ step ∈ history, SupplyLaw float step.1 step.2.2) ↔
      ∀ step ∈ history, FeesFit crypto float step.1 step.2.1 := by
  suffices hboth : ((∀ step ∈ history, SupplyLaw float step.1 step.2.2) ↔
      ∀ step ∈ history, FeesFit crypto float step.1 step.2.1) ∧
      ((∀ step ∈ history, FeesFit crypto float step.1 step.2.1) → SupplySound s) from hboth.1
  induction hrun with
  | @genesis tip hzero hsupply =>
      refine ⟨by simp, fun _ => ⟨?_, le_refl 0, fun hne => absurd hzero hne, ?_, ?_⟩⟩
      · intro o coin hcoin
        cases hcoin
      · simp [SupplyState.supply, utxoValue, hsupply]
      · simp [SupplyState.supply, utxoValue, hzero]
  | @connect history s s' block hrun hstep ih =>
      have hfinite := hrun.finite
      have hnext := (hstep.account hfinite).2.2.2.2.1
      obtain ⟨hiff, hsound⟩ := ih (by omega)
      have hlaw : (∀ step ∈ history, FeesFit crypto float step.1 step.2.1) →
          FeesFit crypto float s block → SupplySound s' := fun hfits hfit =>
        (hsound hfits).step hrewards hfinite hstep hheight hfit
      simp only [List.forall_mem_cons]
      refine ⟨⟨?_, ?_⟩, fun hall => hlaw hall.2 hall.1⟩
      · rintro ⟨hlast, hbefore⟩
        exact ⟨hstep.feesFit hfinite hlast, hiff.mp hbefore⟩
      · rintro ⟨hfit, hfits⟩
        exact ⟨⟨hstep.mint_le hfinite hfit, (hlaw hfits hfit).known⟩, hiff.mpr hfits⟩

end Runs

/-- The sample node with an assumed-valid block far above: it skips script and fee checks. -/
def skippingEnv : ConnectEnv :=
  { sampleEnv with
    hashAssumeValid := 1
    belowAssumeValid := true
    nEquivalentTime := 60 * 60 * 24 * 30 }

def sampleGenesis : CBlockIndex :=
  CBlockIndex.ofHeader 77 CBlockHeader.null

/-- A first block whose coinbase pays two outputs of five coins. -/
def mintCoinbase : CTransaction :=
  ⟨1, 100, [⟨COutPoint.null, [1, 2], 0xffffffff, []⟩],
    [⟨500000000, [Opcode.op1]⟩, ⟨500000000, [Opcode.op1]⟩], 0⟩

def mintBlock : CBlock := sampleBlock [mintCoinbase]

/-- Spend one of the outputs and pay out the largest amount there is. -/
def inflate (n : UInt32) : CTransaction :=
  ⟨1, 100, [⟨⟨mintCoinbase.getHash sampleCrypto, n⟩, [], 0xffffffff, []⟩],
    [⟨maxMoney, [Opcode.op1]⟩], 0⟩

def inflateBlock : CBlock := sampleBlock [sampleCoinbase, inflate 0, inflate 1]

def connectMint : Result Connected :=
  connectBlock skippingEnv mintBlock (sampleIndex mintBlock 1) (some sampleGenesis)
    (sampleView fun _ => none) [] false

def connectInflate (first : Connected) : Result Connected :=
  connectBlock skippingEnv inflateBlock (sampleIndex inflateBlock 2) (some first.pindex)
    first.view [] false

theorem sampleView_empty_utxo : (sampleView fun _ => none).utxo = fun _ => none := by
  funext o
  simp [sampleView, CCoinsViewCache.utxo, CCoinsViewCache.coinAt]

theorem sampleGenesis_run :
    SupplyRun sampleCrypto sampleEnv.float [] ⟨fun _ => none, 0, sampleGenesis⟩ :=
  .genesis rfl rfl

theorem mintBlock_connectsTo {first : Connected} (h : connectMint = .ok first) :
    ConnectsTo sampleCrypto sampleEnv.float ⟨fun _ => none, 0, sampleGenesis⟩ mintBlock
      ⟨first.view.utxo, 0 + blockUnspendable mintBlock.vtx, first.pindex⟩ :=
  ⟨skippingEnv, sampleIndex mintBlock 1, sampleView fun _ => none, [], first, rfl, rfl,
    sampleView_empty_utxo, sampleView_flagsSound _, nofun, by decide +kernel, rfl, rfl, h, rfl⟩

/-- Two transactions of one block that each pay out `MAX_MONEY` from five coins: their
negative fees add up to a positive number in 64 bits. -/
theorem supplyLaw_fails_with_checks_skipped :
    ∃ history s, SupplyRun sampleCrypto sampleEnv.float history s ∧
      ∃ step ∈ history, step.1.supply + (calculateMinerReward sampleEnv.float step.1.tip).toInt +
        2 ^ 63 < step.2.2.supply := by
  have hconnects : (match connectMint with
      | .error _ => false
      | .ok first =>
          (failure? (connectInflate first)).isNone && first.pindex.nHeight = 1 &&
          (calculateMinerReward sampleEnv.float first.pindex).toInt +
            netFees sampleCrypto (first.pindex.nHeight + 1) first.view.utxo inflateBlock.vtx <
              -2 ^ 63) = true := by
    decide +kernel
  cases hmint : connectMint with
  | error failure =>
    rw [hmint] at hconnects
    cases hconnects
  | ok first =>
    rw [hmint] at hconnects
    simp only [Bool.and_eq_true, decide_eq_true_eq, Option.isNone_iff_eq_none] at hconnects
    obtain ⟨⟨hinflate, hheight⟩, hfees⟩ := hconnects
    obtain ⟨second, hinflate⟩ := failure?_eq_none.mp hinflate
    have hfirst := mintBlock_connectsTo hmint
    have haccount := connectBlock_account (sampleBlock_fCheckedSound _)
      (sampleView_flagsSound _) (by rw [sampleView_empty_utxo]; simp [FiniteEntries])
      (by decide +kernel) hmint
    have hrun := SupplyRun.connect sampleGenesis_run hfirst
    have hsecond : ConnectsTo sampleCrypto sampleEnv.float
        ⟨first.view.utxo, 0 + blockUnspendable mintBlock.vtx, first.pindex⟩ inflateBlock
        ⟨second.view.utxo, 0 + blockUnspendable mintBlock.vtx +
          blockUnspendable inflateBlock.vtx, second.pindex⟩ :=
      ⟨skippingEnv, sampleIndex inflateBlock 2, first.view, [], second, rfl, rfl, rfl,
        haccount.flagsSound, nofun, by decide +kernel, by rw [hheight]; rfl, rfl, hinflate, rfl⟩
    refine ⟨_, _, .connect hrun hsecond, _, List.mem_cons_self, ?_⟩
    obtain ⟨-, -, -, -, -, -, -, paid, hpos, -, hvalue⟩ := hsecond.account haccount.finite
    dsimp only at hvalue ⊢
    omega

theorem mintBlock_supplyLaw_iff :
    ∃ history s, history ≠ [] ∧ SupplyRun sampleCrypto sampleEnv.float history s ∧
      ((∀ step ∈ history, SupplyLaw sampleEnv.float step.1 step.2.2) ↔
        ∀ step ∈ history, FeesFit sampleCrypto sampleEnv.float step.1 step.2.1) := by
  have hrewards : RewardsBounded sampleEnv.float := by
    intro nBits _
    simp only [sampleEnv, easyFloat]
    decide
  obtain ⟨first, hmint⟩ := failure?_eq_none.mp
    (show failure? connectMint = none by decide +kernel)
  have hfirst := mintBlock_connectsTo hmint
  have hheight := (hfirst.account sampleGenesis_run.finite).2.2.2.2.1
  have hrun := SupplyRun.connect sampleGenesis_run hfirst
  refine ⟨_, _, List.cons_ne_nil _ _, hrun, supplyLaw_iff_feesFit hrewards hrun ?_⟩
  rw [hheight]
  decide

end Verium
