import Verium.Consensus.ConnectSpec

/-!
Block connection against the spend rules of `CheckTxInputs`. The two paths agree except for
two rules that `ConnectBlock` does not have: the maturity of coinbase coins, and the range of
the input values.
-/

namespace Verium

open Lib

theorem getMinTxFee_eq (params : Params) (tipHeight : Option Nat) (nHeight : Nat) :
    getMinTxFee params tipHeight nHeight = minTxFee ∨
      getMinTxFee params tipHeight nHeight = vip1MinTxFee := by
  unfold getMinTxFee
  exact ite_eq_or_eq _ _ _

theorem getMinTxFee_pos (params : Params) (tipHeight : Option Nat) (nHeight : Nat) :
    0 < (getMinTxFee params tipHeight nHeight).toInt := by
  rcases getMinTxFee_eq params tipHeight nHeight with hrate | hrate
  · rw [hrate]
    decide
  · rw [hrate]
    decide

/-- The factor of 256 in the greater one of the two fees makes up for the bits of the size. -/
theorem productsExact_getMinTxFee (params : Params) (tipHeight : Option Nat) (nHeight : Nat)
    {nBytes : Nat} (hsize : nBytes < 2 ^ 45) :
    ProductsExact (getMinTxFee params tipHeight nHeight) nBytes true := by
  have hunits : ((nBytes / 1000 : Nat) : ℤ).natAbs < 2 ^ (53 + 0) := by omega
  rcases getMinTxFee_eq params tipHeight nHeight with hrate | hrate
  · have hfee : minTxFee.toInt = 20000000 := by decide
    rw [hrate]
    refine ⟨by decide, toDouble_of_dvd (by simp) hunits, toDouble_of_dvd (k := 8) ?_ ?_, ?_⟩
    · exact Dvd.dvd.mul_right (by decide) _
    · rw [hfee]
      omega
    · rw [hfee, feeUnits, Fits]
      simp only [if_true]
      omega
  · have hfee : vip1MinTxFee.toInt = 100000 := by decide
    rw [hrate]
    refine ⟨by decide, toDouble_of_dvd (by simp) hunits, toDouble_of_dvd (k := 0) (by simp) ?_, ?_⟩
    · rw [hfee]
      omega
    · rw [hfee, feeUnits, Fits]
      simp only [if_true]
      omega

theorem toInt_getFee (params : Params) (tipHeight : Option Nat) (nHeight : Nat) {nBytes : Nat}
    (hsize : nBytes < 2 ^ 45) :
    (getFee (getMinTxFee params tipHeight nHeight) nBytes true).toInt =
      (getMinTxFee params tipHeight nHeight).toInt * (nBytes / 1000 + 1 : Nat) := by
  rw [toInt_getFee_eq_exactFee (productsExact_getMinTxFee params tipHeight nHeight hsize),
    exactFee_startFee]

theorem requiredFee_pos (params : Params) (tipHeight : Option Nat) (nHeight : Nat)
    {tx : CTransaction} (hsize : tx.getTotalSize ≤ maxBlockWeight) :
    0 < (requiredFee params tipHeight nHeight tx).toInt := by
  have hpos := getMinTxFee_pos params tipHeight nHeight
  have hbytes : tx.getTotalSize < 2 ^ 45 := lt_of_le_of_lt hsize (by decide)
  rw [requiredFee, toInt_getFee params tipHeight nHeight hbytes]
  positivity

/-- A property of every spending transaction of a block together with the state it is checked
in: the view and the script cache as the earlier transactions of the block have left them. -/
def ForEachSpend (env : ConnectEnv) (block : CBlock) (nHeight : Nat) (fJustCheck : Bool)
    (view : CCoinsViewCache) (cache : List UInt256)
    (P : CTransaction → ConnectState → Prop) : Prop :=
  ∀ pre tx post s, block.vtx = pre ++ tx :: post → tx.isCoinBase = false →
    connectTxs env block nHeight fJustCheck view cache pre = .ok s → P tx s

/-- In the ledger each spending transaction of a block meets, the coins it spends have
matured and their values are in range. -/
def SpendsMatured (crypto : Crypto) (nHeight : Nat) (utxo : UtxoSet)
    (vtx : List CTransaction) : Prop :=
  ∀ pre tx post, vtx = pre ++ tx :: post → tx.isCoinBase = false →
    Matured nHeight (inputCoins (applyTxs crypto nHeight utxo pre) tx.vin) ∧
      CoinsInRange (inputCoins (applyTxs crypto nHeight utxo pre) tx.vin)

section Connected

variable {env : ConnectEnv} {block : CBlock} {nHeight : Nat} {fJustCheck : Bool}
  {view : CCoinsViewCache} {cache : List UInt256}

theorem connectTxs_split {pre post : List CTransaction} {tx : CTransaction}
    {final : ConnectState} (hsplit : block.vtx = pre ++ tx :: post)
    (h : connectTxs env block nHeight fJustCheck view cache block.vtx = .ok final) :
    ∃ s t, connectTxs env block nHeight fJustCheck view cache pre = .ok s ∧
      connectTx env nHeight fJustCheck s tx = .ok t := by
  rw [hsplit] at h
  obtain ⟨s, hpre, hrest⟩ := connectTxs_append.mp h
  obtain ⟨t, htx, -⟩ := foldlM_cons_eq_ok.mp hrest
  exact ⟨s, t, hpre, htx⟩

/-- Each transaction of a connected block was admitted in the state the earlier ones left,
and that state stands for the ledger after them. -/
theorem connectTxs_admitted {pre post : List CTransaction} {tx : CTransaction}
    {s final : ConnectState} (hchecked : CheckedBlock block.vtx) (hsound : view.FlagsSound)
    (h : connectTxs env block nHeight fJustCheck view cache block.vtx = .ok final)
    (hsplit : block.vtx = pre ++ tx :: post)
    (hpre : connectTxs env block nHeight fJustCheck view cache pre = .ok s) :
    (∃ t, TxAdmitted env nHeight s tx t) ∧ CheckedTx tx ∧
      s.view.utxo = applyTxs env.crypto nHeight view.utxo pre := by
  obtain ⟨s', t, hpre', htx⟩ := connectTxs_split hsplit h
  cases hpre.symm.trans hpre'
  obtain ⟨s', undo, hadmitted, -⟩ := connectTx_ok htx
  have hinv := connectTxs_inv hchecked.checked hsound
    (fun tx' hmem => by rw [hsplit]; exact List.mem_append_left _ hmem) hpre
  exact ⟨⟨s', hadmitted⟩, hchecked.checked tx (by rw [hsplit]; simp), hinv.utxo⟩

/-- What the loop body leaves to be asked of a transaction it passes with script checks on. -/
theorem TxAdmitted.checkTxInputs_iff {s t : ConnectState} {tx : CTransaction}
    (h : TxAdmitted env nHeight s tx t) (hchecks : env.fScriptChecks = true)
    (hchecked : CheckedTx tx) (hspend : tx.isCoinBase = false) :
    (∃ r, checkTxInputs tx s.view nHeight = .ok r) ↔
      Matured nHeight (inputCoins s.view.utxo tx.vin) ∧
        CoinsInRange (inputCoins s.view.utxo tx.vin) := by
  rw [checkTxInputs_isOk_iff hspend]
  constructor
  · rintro ⟨-, hmatured, hrange, -, -⟩
    exact ⟨hmatured, hrange⟩
  · rintro ⟨hmatured, hrange⟩
    refine ⟨h.available hspend, hmatured, hrange, h.outputs, ?_⟩
    -- both sums are amounts, so the fee that was tested is the exact difference
    have hin := coinSum_nonneg hrange.nonneg
    have hinlt := hrange.sum_lt
    have hout := outputSum_nonneg h.outputs.nonneg
    have houtlt := h.outputs.sum_lt
    have hfee := h.fee hspend hchecks
    rw [wrap64_of_fits (by omega) (by omega)] at hfee
    have hpos := requiredFee_pos env.params env.check.tipHeight nHeight hchecked.size
    omega

/-- A connected block satisfies `CheckTxInputs` exactly when its spends have matured and the
values spent are in range: `ConnectBlock` itself has made sure of the rest. -/
theorem connectBlock_checkTxInputs_iff {pindex : CBlockIndex} {pprev : Option CBlockIndex}
    {res : Connected} (hchecks : env.fScriptChecks = true) (hflag : FCheckedSound block)
    (hsound : view.FlagsSound) (hgenesis : block.getHash env.crypto ≠ env.params.hashGenesisBlock)
    (h : connectBlock env block pindex pprev view cache fJustCheck = .ok res) :
    (ForEachSpend env block pindex.nHeight fJustCheck view cache fun tx s =>
        ∃ r, checkTxInputs tx s.view pindex.nHeight = .ok r) ↔
      SpendsMatured env.crypto pindex.nHeight view.utxo block.vtx := by
  obtain ⟨hchecked, prev, final, fChecked, -, -, -, hloop, -⟩ :=
    connectBlock_ok hflag hgenesis h
  -- at each spend, the ledger and the view the loop has reached agree
  have hat : ∀ pre tx post s, block.vtx = pre ++ tx :: post → tx.isCoinBase = false →
      connectTxs env block pindex.nHeight fJustCheck view cache pre = .ok s →
      ((∃ r, checkTxInputs tx s.view pindex.nHeight = .ok r) ↔
        Matured pindex.nHeight
            (inputCoins (applyTxs env.crypto pindex.nHeight view.utxo pre) tx.vin) ∧
          CoinsInRange
            (inputCoins (applyTxs env.crypto pindex.nHeight view.utxo pre) tx.vin)) := by
    intro pre tx post s hsplit hspend hpre
    obtain ⟨⟨t, hadmitted⟩, htx, hutxo⟩ :=
      connectTxs_admitted hchecked hsound hloop hsplit hpre
    rw [← hutxo]
    exact hadmitted.checkTxInputs_iff hchecks htx hspend
  constructor
  · intro hall pre tx post hsplit hspend
    obtain ⟨s, t, hpre, -⟩ := connectTxs_split hsplit hloop
    exact (hat pre tx post s hsplit hspend hpre).mp (hall pre tx post s hsplit hspend hpre)
  · intro hall pre tx post s hsplit hspend hpre
    exact (hat pre tx post s hsplit hspend hpre).mpr (hall pre tx post hsplit hspend)

end Connected

/-- A node with default settings whose tip is at height nine. -/
def sampleEnv : ConnectEnv where
  crypto := sampleCrypto
  params := { hashGenesisBlock := 0 }
  float := easyFloat
  check := { scratchbuf := true, tipHeight := some 9 }
  nScriptCheckThreads := 0
  scriptExecutionCacheNonce := []
  hashAssumeValid := 0
  belowAssumeValid := false
  nEquivalentTime := 0

def samplePrev : CBlockIndex :=
  { CBlockIndex.ofHeader 77 CBlockHeader.null with nHeight := 9 }

def sampleIndex (block : CBlock) (nHeight : Nat) : CBlockIndex :=
  { CBlockIndex.ofHeader (block.getHash sampleCrypto) block.toCBlockHeader with nHeight }

/-- A view on top of the entry with hash 77 whose base holds the given coins. -/
def sampleView (coins : UtxoSet) : CCoinsViewCache :=
  ⟨⟨coins, 77⟩, 0, ∅, 0⟩

theorem sampleView_flagsSound (coins : UtxoSet) : (sampleView coins).FlagsSound := by
  intro outpoint entry hlookup
  simp [sampleView] at hlookup

theorem sampleBlock_fCheckedSound (vtx : List CTransaction) : FCheckedSound (sampleBlock vtx) := by
  intro hchecked
  simp [sampleBlock] at hchecked

/-- The coinbase output of the block before, ten coins anyone can spend. -/
def youngCoins : UtxoSet := fun o =>
  if o = ⟨5, 0⟩ then some ⟨⟨1000000000, [Opcode.op1]⟩, true, 9⟩ else none

def youngSpend : CTransaction :=
  ⟨1, 100, [⟨⟨5, 0⟩, [], 0xffffffff, []⟩], [⟨900000000, [Opcode.op1]⟩], 0⟩

def youngBlock : CBlock := sampleBlock [sampleCoinbase, youngSpend]

/-- A coinbase output can be spent in the very next block, ninety-nine blocks early. -/
theorem connectBlock_spends_immature_coinbase :
    sampleEnv.fScriptChecks = true ∧
      (∃ res, connectBlock sampleEnv youngBlock (sampleIndex youngBlock 10) (some samplePrev)
        (sampleView youngCoins) [] false = .ok res) ∧
      ∃ s, connectTxs sampleEnv youngBlock 10 false (sampleView youngCoins) []
          [sampleCoinbase] = .ok s ∧
        checkTxInputs youngSpend s.view 10 =
          .error (.invalid .txPrematureSpend rejectInvalid
            "bad-txns-premature-spend-of-coinbase") := by
  refine ⟨by decide, failure?_eq_none.mp (by decide +kernel), ?_⟩
  have hcheck : (match connectTxs sampleEnv youngBlock 10 false (sampleView youngCoins) []
        [sampleCoinbase] with
      | .ok s => failure? (checkTxInputs youngSpend s.view 10)
      | .error _ => none) =
      some (.invalid .txPrematureSpend rejectInvalid
        "bad-txns-premature-spend-of-coinbase") := by
    decide +kernel
  cases hloop : connectTxs sampleEnv youngBlock 10 false (sampleView youngCoins) []
      [sampleCoinbase] with
  | error failure =>
    rw [hloop] at hcheck
    cases hcheck
  | ok s =>
    rw [hloop] at hcheck
    exact ⟨s, rfl, failure?_eq_some.mp hcheck⟩

theorem youngBlock_checkTxInputs_iff :
    (ForEachSpend sampleEnv youngBlock (sampleIndex youngBlock 109).nHeight false
        (sampleView youngCoins) [] fun tx s =>
          ∃ r, checkTxInputs tx s.view (sampleIndex youngBlock 109).nHeight = .ok r) ↔
      SpendsMatured sampleEnv.crypto (sampleIndex youngBlock 109).nHeight
        (sampleView youngCoins).utxo youngBlock.vtx := by
  have hconnects : ∃ res, connectBlock sampleEnv youngBlock (sampleIndex youngBlock 109)
      (some samplePrev) (sampleView youngCoins) [] false = .ok res :=
    failure?_eq_none.mp (by decide +kernel)
  have hgenesis : youngBlock.getHash sampleEnv.crypto ≠ sampleEnv.params.hashGenesisBlock := by
    decide +kernel
  obtain ⟨res, hres⟩ := hconnects
  exact connectBlock_checkTxInputs_iff (by decide) (sampleBlock_fCheckedSound _)
    (sampleView_flagsSound _) hgenesis hres

end Verium
