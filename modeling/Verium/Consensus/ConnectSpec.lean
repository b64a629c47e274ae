import Verium.Consensus.Ledger

/-!
What the parts of `ConnectBlock` guarantee when they succeed. Each part gets one lemma that
says how it can end; the loop body is then taken apart once, and the results about blocks
are inductions over the transactions that use it.
-/

namespace Verium

open Lib

/-- What `CheckTransaction` establishes about a transaction. -/
structure CheckedTx (tx : CTransaction) : Prop where
  vin : tx.vin ≠ []
  vout : tx.vout ≠ []
  size : tx.getTotalSize ≤ maxBlockWeight
  outputs : OutputsInRange tx.vout
  distinct : (tx.vin.map CTxIn.prevout).Nodup

theorem checkTransaction_checked {tx : CTransaction} (h : checkTransaction tx true = .ok ()) :
    CheckedTx tx := by
  simp only [checkTransaction, bind_eq_ok, rejectIf_eq_ok, not_and, not_not, not_lt] at h
  obtain ⟨-, hvin, -, hvout, -, hsize, sum, hsum, -, hdistinct, -⟩ := h
  obtain ⟨hnonneg, hlt, -⟩ := (foldlM_outputs checkTxOut_eq_ok _ _ _ (by decide)).mp hsum
  refine ⟨hvin, hvout, ?_, ⟨hnonneg, ?_⟩, hdistinct trivial⟩
  · simpa [witnessScaleFactor] using hsize
  · simpa using hlt

theorem vout_length_le_getTotalSize (tx : CTransaction) : tx.vout.length ≤ tx.getTotalSize := by
  have hvout := serVector_length_ge CTxOut.serialize 1 tx.vout (by
    intro txout _
    rw [CTxOut.serialize_length]
    omega)
  simp only [CTransaction.getTotalSize, CTransaction.serialize, List.length_append]
  omega

theorem CheckedTx.vout_length {tx : CTransaction} (h : CheckedTx tx) : tx.vout.length ≤ 2 ^ 32 := by
  have hle := vout_length_le_getTotalSize tx
  have hsize := h.size
  simp only [maxBlockWeight, maxBlockSerializedSize] at hsize
  omega

/-- What `CheckBlock` establishes about the transactions of a block: the first one, and no
other, is a coinbase, and each of them has been checked. -/
structure CheckedBlock (vtx : List CTransaction) : Prop where
  coinbase : ∃ coinbase rest, vtx = coinbase :: rest ∧ coinbase.isCoinBase = true ∧
    ∀ tx ∈ rest, tx.isCoinBase = false
  checked : ∀ tx ∈ vtx, CheckedTx tx

theorem checkBlockTransactions_checked {ctx : CheckContext} {block : CBlock}
    (h : checkBlockTransactions ctx block = .ok ()) : CheckedBlock block.vtx := by
  unfold checkBlockTransactions at h
  obtain ⟨-, -, h⟩ := bind_eq_ok.mp h
  cases hvtx : block.vtx with
  | nil =>
    rw [hvtx] at h
    cases h
  | cons coinbase rest =>
    simp only [hvtx, bind_eq_ok, rejectIf_eq_ok, not_not] at h
    obtain ⟨-, hcb, -, -, -, hrest, _, hall, -⟩ := h
    refine ⟨⟨coinbase, rest, rfl, hcb, ?_⟩, ?_⟩
    · intro tx hmem
      rw [← Bool.not_eq_true]
      exact fun htx => hrest ⟨tx, hmem, htx⟩
    intro tx hmem
    obtain ⟨-, -, hcheck⟩ := bind_eq_ok.mp (forM_eq_ok.mp hall tx hmem)
    exact checkTransaction_checked hcheck

/-- The meaning of `fChecked`: only a block that passed carries the mark. -/
def FCheckedSound (block : CBlock) : Prop :=
  block.fChecked = true → ∃ ctx, checkBlockTransactions ctx block = .ok ()

/-- `CheckBlock` changes nothing but the mark, and a block it passes has been checked. -/
theorem checkBlock_checked {crypto : Crypto} {ctx : CheckContext} {block block' : CBlock}
    {fCheckPOW fCheckMerkleRoot : Bool} (hflag : FCheckedSound block)
    (h : checkBlock crypto ctx block fCheckPOW fCheckMerkleRoot = .ok block') :
    CheckedBlock block.vtx ∧ ∃ fChecked, block' = { block with fChecked } := by
  unfold checkBlock at h
  cases hchecked : block.fChecked with
  | true =>
    obtain ⟨ctx', hpass⟩ := hflag hchecked
    rw [hchecked] at h
    cases h
    exact ⟨checkBlockTransactions_checked hpass, block.fChecked, rfl⟩
  | false =>
    simp only [hchecked, Bool.false_eq_true, if_false] at h
    obtain ⟨-, -, h⟩ := bind_eq_ok.mp h
    obtain ⟨-, -, h⟩ := bind_eq_ok.mp h
    obtain ⟨_, htxs, h⟩ := bind_eq_ok.mp h
    cases h
    exact ⟨checkBlockTransactions_checked htxs, _, rfl⟩

/-- A block that is marked was marked by `CheckBlock`, in a call with both flags. -/
def MarkedByCheckBlock (crypto : Crypto) (block : CBlock) : Prop :=
  block.fChecked = true →
    ∃ ctx, checkBlock crypto ctx { block with fChecked := false } true true = .ok block

theorem checkBlock_unmarked {crypto : Crypto} {ctx : CheckContext} {block block' : CBlock}
    {fCheckMerkleRoot : Bool} (hunchecked : block.fChecked = false)
    (h : checkBlock crypto ctx block true fCheckMerkleRoot = .ok block') :
    targetInRange block.nBits = true ∧ checkBlockTransactions ctx block = .ok () := by
  simp only [checkBlock, hunchecked, Bool.false_eq_true, if_false] at h
  obtain ⟨_, hwork, h⟩ := bind_eq_ok.mp h
  obtain ⟨-, -, h⟩ := bind_eq_ok.mp h
  obtain ⟨_, htxs, -⟩ := bind_eq_ok.mp h
  rw [checkWhen_eq_ok, checkBlockWork, rejectIf_eq_ok, not_not] at hwork
  exact ⟨(Bool.and_eq_true_iff.mp (hwork trivial)).1, htxs⟩

theorem MarkedByCheckBlock.fCheckedSound {crypto : Crypto} {block : CBlock}
    (h : MarkedByCheckBlock crypto block) : FCheckedSound block := by
  intro hmarked
  obtain ⟨ctx, hpass⟩ := h hmarked
  exact ⟨ctx, (checkBlock_unmarked rfl hpass).2⟩

theorem MarkedByCheckBlock.targetInRange {crypto : Crypto} {ctx : CheckContext}
    {block block' : CBlock} {fCheckMerkleRoot : Bool} (hmark : MarkedByCheckBlock crypto block)
    (h : checkBlock crypto ctx block true fCheckMerkleRoot = .ok block') :
    targetInRange block.nBits = true := by
  cases hmarked : block.fChecked with
  | true =>
    obtain ⟨ctx', hpass⟩ := hmark hmarked
    exact (checkBlock_unmarked rfl hpass).1
  | false => exact (checkBlock_unmarked hmarked h).1

/-- The state after the value sums, given the value of the outputs. -/
def tallied (s : ConnectState) (tx : CTransaction) (nTxValueOut : CAmount) : ConnectState :=
  if tx.isCoinBase then { s with nValueOut := s.nValueOut + nTxValueOut }
  else
    { s with
      view := (s.view.getValueIn tx).2
      nValueIn := s.nValueIn + (s.view.getValueIn tx).1
      nValueOut := s.nValueOut + nTxValueOut
      nFees := s.nFees + ((s.view.getValueIn tx).1 - nTxValueOut) }

theorem tallyValues_eq (s : ConnectState) (tx : CTransaction) :
    tallyValues s tx = tx.getValueOut >>= fun nTxValueOut => .ok (tallied s tx nTxValueOut) := by
  unfold tallyValues tallied
  cases tx.isCoinBase with
  | true => rfl
  | false => rfl

theorem tallied_readsTo (s : ConnectState) (tx : CTransaction) (nTxValueOut : CAmount) :
    s.view.ReadsTo (tallied s tx nTxValueOut).view := by
  unfold tallied
  split
  · exact .refl s.view
  · exact getValueIn_readsTo s.view tx

theorem foldlM_withCoin_const {ρ α : Type} {utxo : UtxoSet} {prevout : α → COutPoint}
    {body : ρ → α → Coin → Result ρ} (hbody : ∀ acc input coin, body acc input coin = .ok acc)
    (inputs : List α) (acc : ρ) :
    inputs.foldlM (withCoin utxo prevout body) acc =
      if ∀ input ∈ inputs, (utxo (prevout input)).isSome = true then .ok acc
      else .error (.assertion "!coin.IsSpent()") := by
  induction inputs with
  | nil => simp [pure, Except.pure]
  | cons input rest ih =>
      rw [List.foldlM_cons, withCoin]
      cases hcoin : utxo (prevout input) with
      | none => simp [hcoin]
      | some coin =>
        simp only [hbody, ok_bind, ih, List.forall_mem_cons, hcoin, Option.isSome_some, true_and]

/-- With no flags set the sigop cost of a spending transaction is its legacy count, and
computing it asserts that every input is available. -/
theorem getTransactionSigOpCost_spend {tx : CTransaction} (hspend : tx.isCoinBase = false)
    (view : CCoinsViewCache) :
    ∃ view', view.ReadsTo view' ∧
      getTransactionSigOpCost tx view getBlockScriptFlags =
        if Available view.utxo tx.vin then
          .ok (getLegacySigOpCount tx * witnessScaleFactor, view')
        else .error (.assertion "!coin.IsSpent()") := by
  have hp2sh : hasFlag getBlockScriptFlags scriptVerifyP2SH = false := by decide
  have hwitness : hasFlag getBlockScriptFlags scriptVerifyWitness = false := by decide
  obtain ⟨view', hread, hloop⟩ := foldlM_withUnspent CTxIn.prevout
    (fun nSigOps txin coin => do
      let n ← countWitnessSigOps txin.scriptSig coin.out.scriptPubKey txin.scriptWitness
        getBlockScriptFlags
      return nSigOps + n)
    tx.vin (getLegacySigOpCount tx * witnessScaleFactor) view
  refine ⟨view', hread, ?_⟩
  rw [foldlM_withCoin_const (by
    intro nSigOps txin coin
    simp [countWitnessSigOps, hwitness, pure, Except.pure])] at hloop
  simp only [getTransactionSigOpCost, hspend, hp2sh, Bool.false_eq_true, if_false]
  change tx.vin.foldlM (withUnspent CTxIn.prevout _) _ = _
  simp only [pure, Except.pure, zero_mul, add_zero] at hloop ⊢
  rw [hloop]
  by_cases havail : Available view.utxo tx.vin
  · rw [if_pos havail, if_pos (show ∀ txin ∈ tx.vin, _ from havail)]
    rfl
  · rw [if_neg havail, if_neg (show ¬ ∀ txin ∈ tx.vin, _ from havail)]
    rfl

theorem getTransactionSigOpCost_coinbase {tx : CTransaction} (hcb : tx.isCoinBase = true)
    (view : CCoinsViewCache) (flags : UInt32) :
    getTransactionSigOpCost tx view flags =
      .ok (getLegacySigOpCount tx * witnessScaleFactor, view) := by
  simp [getTransactionSigOpCost, hcb, pure, Except.pure]

theorem foldlM_withCoin_check {α : Type} {utxo : UtxoSet} {prevout : α → COutPoint}
    {body : Unit → α → Coin → Result Unit} {inputs : List α} {u : Unit} :
    inputs.foldlM (withCoin utxo prevout body) () = .ok u ↔
      ∀ input ∈ inputs, ∃ coin, utxo (prevout input) = some coin ∧ body () input coin = .ok () := by
  induction inputs with
  | nil => simp [pure, Except.pure]
  | cons input rest ih =>
      rw [foldlM_cons_eq_ok, List.forall_mem_cons, withCoin]
      cases utxo (prevout input) with
      | none => simp
      | some coin =>
        constructor
        · rintro ⟨_, hbody, hrest⟩
          exact ⟨⟨coin, rfl, hbody⟩, ih.mp hrest⟩
        · rintro ⟨⟨_, hcoin, hbody⟩, hrest⟩
          cases hcoin
          exact ⟨(), hbody, ih.mpr hrest⟩

/-- `CheckInputs` only reads, and when it passes a spending transaction that is not in the
script execution cache, every input is available and its script has been run, unless the
checks were to be collected. -/
theorem checkInputs_ok {crypto : Crypto} {nonce : Bytes} {tx : CTransaction}
    {view view' : CCoinsViewCache} {flags : UInt32} {store pvChecks : Bool}
    {cache cache' : List UInt256} (hspend : tx.isCoinBase = false)
    (h : checkInputs crypto nonce tx view flags store pvChecks cache = .ok (view', cache')) :
    view.ReadsTo view' ∧
      (scriptCacheEntry crypto nonce tx flags ∈ cache ∨
        ∀ input ∈ tx.vin.zipIdx, ∃ coin, view.utxo input.1.prevout = some coin ∧
          checkInput crypto tx flags pvChecks () input coin = .ok ()) := by
  simp only [checkInputs, hspend, Bool.false_eq_true, if_false] at h
  by_cases hcached : scriptCacheEntry crypto nonce tx flags ∈ cache
  · simp only [hcached, if_true] at h
    cases h
    exact ⟨.refl _, .inl hcached⟩
  · simp only [hcached, if_false] at h
    obtain ⟨mid, hread, hloop⟩ := foldlM_withUnspent (fun input => input.1.prevout)
      (checkInput crypto tx flags pvChecks) tx.vin.zipIdx () view
    rw [hloop] at h
    obtain ⟨⟨u, last⟩, hmap, h⟩ := bind_eq_ok.mp h
    cases hres : tx.vin.zipIdx.foldlM
        (withCoin view.utxo (fun input => input.1.prevout)
          (checkInput crypto tx flags pvChecks)) () with
    | error failure =>
      rw [hres] at hmap
      cases hmap
    | ok _ =>
      rw [hres] at hmap
      cases hmap
      have hview : view' = mid := by
        dsimp only at h
        split at h
        · cases h
          rfl
        · cases h
          rfl
      exact ⟨hview ▸ hread, .inr (foldlM_withCoin_check.mp hres)⟩

section LoopBody

variable {env : ConnectEnv} {nHeight : Nat} {fJustCheck : Bool} {s t : ConnectState}
  {tx : CTransaction}

theorem tallySigOps_ok (h : tallySigOps s tx = .ok t) :
    s.view.ReadsTo t.view ∧ (tx.isCoinBase = false → Available s.view.utxo tx.vin) ∧
      ∃ nSigOpsCost, t = { s with view := t.view, nSigOpsCost } := by
  obtain ⟨⟨cost, view⟩, hcost, h⟩ := bind_eq_ok.mp h
  obtain ⟨-, -, h⟩ := bind_eq_ok.mp h
  cases h
  cases hcb : tx.isCoinBase with
  | true =>
    rw [getTransactionSigOpCost_coinbase hcb] at hcost
    cases hcost
    exact ⟨.refl _, by simp, _, rfl⟩
  | false =>
    obtain ⟨view', hread, hspec⟩ := getTransactionSigOpCost_spend hcb s.view
    rw [hspec] at hcost
    split at hcost
    next havail =>
      cases hcost
      exact ⟨hread, fun _ => havail, _, rfl⟩
    next => cases hcost

theorem checkTx_ok (havail : tx.isCoinBase = false → Available s.view.utxo tx.vin)
    (h : checkTx env nHeight fJustCheck s tx = .ok t) :
    s.view.ReadsTo t.view ∧ (∃ cache, t = { s with view := t.view, cache }) ∧
      (tx.isCoinBase = false → env.fScriptChecks = true →
        (requiredFee env.params env.check.tipHeight nHeight tx).toInt ≤
          wrap64 (coinSum (inputCoins s.view.utxo tx.vin) - outputSum tx.vout) ∧
        (scriptCacheEntry env.crypto env.scriptExecutionCacheNonce tx getBlockScriptFlags ∈
            s.cache ∨
          ∀ input ∈ tx.vin.zipIdx, ∃ coin, s.view.utxo input.1.prevout = some coin ∧
            checkInput env.crypto tx getBlockScriptFlags (env.nScriptCheckThreads ≠ 0) () input
              coin = .ok ())) := by
  unfold checkTx at h
  split at h
  next hspend =>
    rw [Bool.not_eq_true] at hspend
    obtain ⟨⟨view, cache⟩, hinputs, h⟩ := bind_eq_ok.mp h
    obtain ⟨hread, hscripts⟩ := checkInputs_ok hspend.1 (mapError_eq_ok.mp hinputs)
    have hreadIn := getValueIn_readsTo view tx
    have hin := getValueIn_toInt hspend.1 view (by rw [hread.utxo]; exact havail hspend.1)
    rw [hread.utxo] at hin
    dsimp only at h
    cases hvalue : view.getValueIn tx with
    | mk valueIn read =>
      rw [hvalue] at h hreadIn hin
      obtain ⟨valueOut, hout, h⟩ := bind_eq_ok.mp h
      obtain ⟨_, hfee, h⟩ := bind_eq_ok.mp h
      cases h
      refine ⟨hread.trans hreadIn, ⟨_, rfl⟩, fun _ _ => ⟨?_, hscripts⟩⟩
      rw [rejectIf_eq_ok, Int64.lt_iff_toInt_lt, not_lt, toInt_sub, hin,
        (getValueOut_eq_ok.mp hout).2, wrap64_wrap64_sub] at hfee
      exact hfee
  next hskip =>
    cases h
    exact ⟨.refl _, ⟨_, rfl⟩, fun hspend hchecks => absurd ⟨by simp [hspend], hchecks⟩ hskip⟩

/-- What the reading part of the loop body has established when it passes. -/
structure TxAdmitted (env : ConnectEnv) (nHeight : Nat) (s : ConnectState)
    (tx : CTransaction) (t : ConnectState) : Prop where
  outputs : OutputsInRange tx.vout
  available : tx.isCoinBase = false → Available s.view.utxo tx.vin
  reads : s.view.ReadsTo t.view
  nValueOut : t.nValueOut.toInt = wrap64 (s.nValueOut.toInt + outputSum tx.vout)
  nValueIn : t.nValueIn.toInt = if tx.isCoinBase then s.nValueIn.toInt else
    wrap64 (s.nValueIn.toInt + coinSum (inputCoins s.view.utxo tx.vin))
  nFees : t.nFees.toInt = if tx.isCoinBase then s.nFees.toInt else
    wrap64 (s.nFees.toInt + (coinSum (inputCoins s.view.utxo tx.vin) - outputSum tx.vout))
  /-- The fee test, when it is made. -/
  fee : tx.isCoinBase = false → env.fScriptChecks = true →
    (requiredFee env.params env.check.tipHeight nHeight tx).toInt ≤
      wrap64 (coinSum (inputCoins s.view.utxo tx.vin) - outputSum tx.vout)
  /-- The script tests, when they are made. -/
  scripts : tx.isCoinBase = false → env.fScriptChecks = true →
    scriptCacheEntry env.crypto env.scriptExecutionCacheNonce tx getBlockScriptFlags ∈ s.cache ∨
      ∀ input ∈ tx.vin.zipIdx, ∃ coin, s.view.utxo input.1.prevout = some coin ∧
        checkInput env.crypto tx getBlockScriptFlags (env.nScriptCheckThreads ≠ 0) () input coin =
          .ok ()
  vtxundo : t.vtxundo = s.vtxundo
  i : t.i = s.i

theorem admitTx_admitted (h : admitTx env nHeight fJustCheck s tx = .ok t) :
    TxAdmitted env nHeight s tx t := by
  obtain ⟨s₁, h₁, h⟩ := bind_eq_ok.mp h
  obtain ⟨s₂, h₂, h₃⟩ := bind_eq_ok.mp h
  rw [tallyValues_eq] at h₁
  obtain ⟨valueOut, hout, h₁⟩ := bind_eq_ok.mp h₁
  cases h₁
  obtain ⟨hrange, hvalue⟩ := getValueOut_eq_ok.mp hout
  have hread₁ := tallied_readsTo s tx valueOut
  obtain ⟨hread₂, havail, cost, hs₂⟩ := tallySigOps_ok h₂
  obtain ⟨hread₃, ⟨cache, hs₃⟩, hspend⟩ := checkTx_ok (by rwa [hread₂.utxo]) h₃
  have hcache : s₂.cache = s.cache := by
    rw [hs₂, tallied]
    split <;> rfl
  rw [hread₁.utxo] at havail
  rw [hread₂.utxo, hread₁.utxo, hcache] at hspend
  have hin : tx.isCoinBase = false → _ := fun hcb => getValueIn_toInt hcb s.view (havail hcb)
  refine ⟨hrange, havail, (hread₁.trans hread₂).trans hread₃, ?_, ?_, ?_,
    fun hcb hchecks => (hspend hcb hchecks).1, fun hcb hchecks => (hspend hcb hchecks).2, ?_, ?_⟩
  all_goals
    rw [hs₃, hs₂, tallied]
    cases hcb : tx.isCoinBase with
    | true => simp only [if_true, toInt_add, hvalue]
    | false =>
      simp only [Bool.false_eq_true, if_false, toInt_add, toInt_sub, hin hcb, hvalue,
        wrap64_add_wrap64, wrap64_wrap64_sub]

theorem connectTx_ok (h : connectTx env nHeight fJustCheck s tx = .ok t) :
    ∃ s' undo, TxAdmitted env nHeight s tx s' ∧
      updateCoins env.crypto tx s'.view nHeight = .ok (undo, t.view) ∧
      t = { s' with
        view := t.view
        vtxundo := if s.i = 0 then s.vtxundo else s.vtxundo ++ [undo]
        i := s.i + 1 } := by
  obtain ⟨s', hadmit, h⟩ := bind_eq_ok.mp h
  obtain ⟨⟨undo, view⟩, hupdate, h⟩ := bind_eq_ok.mp h
  cases h
  have hadmitted := admitTx_admitted hadmit
  refine ⟨s', undo, hadmitted, hupdate, ?_⟩
  rw [hadmitted.i, hadmitted.vtxundo]

end LoopBody

section Loop

variable {env : ConnectEnv} {nHeight : Nat} {fJustCheck : Bool} {block : CBlock}
  {view view' : CCoinsViewCache} {cache : List UInt256} {s t : ConnectState}

theorem checkBIP30_eq_ok {outpoint : COutPoint} :
    checkBIP30 view outpoint = .ok view' ↔
      view.utxo outpoint = none ∧ view' = (view.haveCoin outpoint).2 := by
  have hfound := view.haveCoin_fst outpoint
  cases hhave : view.haveCoin outpoint with
  | mk found read =>
    rw [hhave] at hfound
    simp only [checkBIP30, hhave, bind_eq_ok, rejectIf_eq_ok, exists_const]
    dsimp only at hfound
    rw [hfound, Option.isSome_iff_ne_none, ne_eq, not_not]
    constructor
    · rintro ⟨hnone, h⟩
      cases h
      exact ⟨hnone, rfl⟩
    · rintro ⟨hnone, rfl⟩
      exact ⟨hnone, rfl⟩

/-- After one lookup the base has nothing unspent there, or the coin is cached. -/
theorem haveCoin_covers {outs : COutPoint → Prop} (outpoint : COutPoint) (h : view.Covers outs) :
    (view.haveCoin outpoint).2.Covers fun o => o = outpoint ∨ outs o := by
  have hread := view.haveCoin_readsTo outpoint
  rintro o (rfl | ho) hcached
  · intro c hbase
    rw [hread.base] at hbase
    exact absurd (view.mem_haveCoin_cacheCoins o hbase) hcached
  · exact hread.covers h o ho hcached

/-- The BIP30 loop passes when no output of the block exists, and leaves them all covered. -/
theorem foldlM_checkBIP30 {outs : List COutPoint} (h : outs.foldlM checkBIP30 view = .ok view') :
    (∀ o ∈ outs, view.utxo o = none) ∧ view.ReadsTo view' ∧ view'.Covers (· ∈ outs) := by
  induction outs generalizing view with
  | nil =>
      rw [foldlM_nil_eq_ok] at h
      cases h
      exact ⟨by simp, .refl _, fun o ho => by simp at ho⟩
  | cons o rest ih =>
      obtain ⟨mid, hstep, hrest⟩ := foldlM_cons_eq_ok.mp h
      obtain ⟨hnone, rfl⟩ := checkBIP30_eq_ok.mp hstep
      have hread := view.haveCoin_readsTo o
      obtain ⟨hnew, hread', hcovers⟩ := ih hrest
      rw [hread.utxo] at hnew
      refine ⟨List.forall_mem_cons.mpr ⟨hnone, hnew⟩, hread.trans hread', ?_⟩
      have hhead : view'.Covers fun o' => o' = o ∨ False :=
        hread'.covers (haveCoin_covers o (fun _ h => h.elim))
      intro o' ho'
      rcases List.mem_cons.mp ho' with rfl | hmem
      · exact hhead o' (.inl rfl)
      · exact hcovers o' hmem

theorem mem_blockOutPoints {crypto : Crypto} {vtx : List CTransaction} {tx : CTransaction}
    {i : Nat} (htx : tx ∈ vtx) (hi : i < tx.vout.length) :
    tx.outPoint crypto i ∈ blockOutPoints crypto vtx :=
  List.mem_flatMap.mpr ⟨tx, htx, List.mem_map_of_mem (List.mem_range.mpr hi)⟩

/-- What the loop maintains: after the transactions `done`, the view stands for the ledger
after them, and the outpoints of the block are still covered. -/
structure LoopInv (env : ConnectEnv) (nHeight : Nat) (block : CBlock)
    (start : CCoinsViewCache) (done : List CTransaction) (s : ConnectState) : Prop where
  utxo : s.view.utxo = applyTxs env.crypto nHeight start.utxo done
  base : s.view.base = start.base
  hashBlock : s.view.hashBlock = start.hashBlock
  flagsSound : s.view.FlagsSound
  covers : s.view.Covers (· ∈ blockOutPoints env.crypto block.vtx)

section Step

variable {done : List CTransaction} {tx : CTransaction}

theorem LoopInv.canUpdate (hinv : LoopInv env nHeight block view done s)
    (hchecked : CheckedTx tx) (htx : tx ∈ block.vtx) {read : CCoinsViewCache}
    (hread : s.view.ReadsTo read) :
    CanUpdate env.crypto read (· ∈ blockOutPoints env.crypto block.vtx) tx where
  flagsSound := hread.flagsSound hinv.flagsSound
  covers := hread.covers hinv.covers
  out := fun _ hi => mem_blockOutPoints htx hi
  outputs := hchecked.outputs
  length := hchecked.vout_length

/-- One round of the loop: the ledger after one more transaction, which has overwritten
nothing unless it is a coinbase. -/
theorem LoopInv.step (hinv : LoopInv env nHeight block view done s) (hchecked : CheckedTx tx)
    (htx : tx ∈ block.vtx) (h : connectTx env nHeight fJustCheck s tx = .ok t) :
    LoopInv env nHeight block view (done ++ [tx]) t ∧
      (tx.isCoinBase = true ∨ CreatesFresh env.crypto nHeight s.view.utxo tx) := by
  obtain ⟨s', undo, hadmitted, hupdate, -⟩ := connectTx_ok h
  have hread := hadmitted.reads
  obtain ⟨hwrite, hfresh⟩ := updateCoins_writesTo (hinv.canUpdate hchecked htx hread) hupdate
  rw [hread.utxo] at hwrite hfresh
  refine ⟨⟨?_, ?_, ?_, hwrite.flagsSound, ?_⟩, hfresh⟩
  · rw [hwrite.utxo, hinv.utxo, applyTxs, applyTxs, List.foldl_append]
    rfl
  · rw [hwrite.base, hread.base, hinv.base]
  · rw [hwrite.hashBlock, hread.hashBlock, hinv.hashBlock]
  · exact hwrite.covers _ (hread.covers hinv.covers)

end Step

theorem connectTxs_eq_ok {txs : List CTransaction} :
    connectTxs env block nHeight fJustCheck view cache txs = .ok s ↔
      ∃ read, (blockOutPoints env.crypto block.vtx).foldlM checkBIP30 view = .ok read ∧
        txs.foldlM (connectTx env nHeight fJustCheck) (ConnectState.start read cache) =
          .ok s := by
  rw [connectTxs, bind_eq_ok]

theorem connectTxs_append {pre post : List CTransaction} :
    connectTxs env block nHeight fJustCheck view cache (pre ++ post) = .ok t ↔
      ∃ s, connectTxs env block nHeight fJustCheck view cache pre = .ok s ∧
        post.foldlM (connectTx env nHeight fJustCheck) s = .ok t := by
  simp only [connectTxs_eq_ok, foldlM_append_eq_ok]
  constructor
  · rintro ⟨read, hread, s, hpre, hpost⟩
    exact ⟨s, ⟨read, hread, hpre⟩, hpost⟩
  · rintro ⟨s, ⟨read, hread, hpre⟩, hpost⟩
    exact ⟨read, hread, s, hpre, hpost⟩

theorem connectTxs_inv (hchecked : ∀ tx ∈ block.vtx, CheckedTx tx) (hsound : view.FlagsSound)
    {txs : List CTransaction} (htxs : ∀ tx ∈ txs, tx ∈ block.vtx)
    (h : connectTxs env block nHeight fJustCheck view cache txs = .ok s) :
    LoopInv env nHeight block view txs s := by
  induction txs using List.reverseRecOn generalizing s with
  | nil =>
      obtain ⟨read, hbip30, hstart⟩ := connectTxs_eq_ok.mp h
      rw [foldlM_nil_eq_ok] at hstart
      cases hstart
      obtain ⟨-, hread, hcovers⟩ := foldlM_checkBIP30 hbip30
      exact ⟨hread.utxo, hread.base, hread.hashBlock, hread.flagsSound hsound, hcovers⟩
  | append_singleton done tx ih =>
      obtain ⟨mid, hdone, hlast⟩ := connectTxs_append.mp h
      obtain ⟨t, htx, hnil⟩ := foldlM_cons_eq_ok.mp hlast
      rw [foldlM_nil_eq_ok] at hnil
      cases hnil
      have hinv := ih (fun tx hmem => htxs tx (List.mem_append_left _ hmem)) hdone
      have hmem : tx ∈ block.vtx := htxs tx (by simp)
      exact (hinv.step (hchecked tx hmem) hmem htx).1

theorem spendTx_coinbase {utxo : UtxoSet} {tx : CTransaction} (h : tx.isCoinBase = true) :
    spendTx utxo tx = utxo := by
  rw [spendTx, spentOutPoints, if_pos h]
  rfl

/-- By BIP30 nothing is in the way of a coinbase on the ledger before the block. -/
theorem createsFresh_coinbase {tx : CTransaction} (htx : tx ∈ block.vtx)
    (hcb : tx.isCoinBase = true)
    (hbip30 : ∀ o ∈ blockOutPoints env.crypto block.vtx, view.utxo o = none) :
    CreatesFresh env.crypto nHeight view.utxo tx := by
  intro e he
  obtain ⟨output, houtput, hcreated⟩ := List.mem_filterMap.mp he
  rw [spendTx_coinbase hcb, (createdCoin_eq_some hcreated).2.1]
  exact hbip30 _ (mem_blockOutPoints htx (List.snd_lt_of_mem_zipIdx houtput))

theorem connectTxs_bip30 {txs : List CTransaction}
    (h : connectTxs env block nHeight fJustCheck view cache txs = .ok s) :
    ∀ o ∈ blockOutPoints env.crypto block.vtx, view.utxo o = none := by
  obtain ⟨read, hbip30, -⟩ := connectTxs_eq_ok.mp h
  exact (foldlM_checkBIP30 hbip30).1

end Loop

section WholeBlock

variable {env : ConnectEnv} {block : CBlock} {pindex : CBlockIndex}
  {pprev : Option CBlockIndex} {view : CCoinsViewCache} {cache : List UInt256}
  {fJustCheck : Bool} {res : Connected}

theorem checkBlockAgain_ok {block' : CBlock}
    (h : checkBlockAgain env block fJustCheck = .ok block') :
    checkBlock env.crypto env.check block (!fJustCheck) (!fJustCheck) = .ok block' := by
  unfold checkBlockAgain at h
  cases hcheck : checkBlock env.crypto env.check block (!fJustCheck) (!fJustCheck) with
  | ok passed =>
    rw [hcheck] at h
    exact h
  | error failure =>
    rw [hcheck] at h
    dsimp only at h
    split at h
    · cases h
    · cases h

theorem connectBlock_ok (hflag : FCheckedSound block)
    (hgenesis : block.getHash env.crypto ≠ env.params.hashGenesisBlock)
    (h : connectBlock env block pindex pprev view cache fJustCheck = .ok res) :
    CheckedBlock block.vtx ∧ ∃ prev s fChecked, pprev = some prev ∧
      view.getBestBlock = prev.hashBlock ∧ pindex.hashBlock = block.getHash env.crypto ∧
      connectTxs env block pindex.nHeight fJustCheck view cache block.vtx = .ok s ∧
      finishBlock env { block with fChecked } pindex prev s fJustCheck = .ok res := by
  obtain ⟨_, hhash, h⟩ := bind_eq_ok.mp h
  rw [assertThat_eq_ok] at hhash
  obtain ⟨block', hcheck, h⟩ := bind_eq_ok.mp h
  obtain ⟨_, hbest, h⟩ := bind_eq_ok.mp h
  rw [assertThat_eq_ok] at hbest
  obtain ⟨hchecked, fChecked, rfl⟩ := checkBlock_checked hflag (checkBlockAgain_ok hcheck)
  refine ⟨hchecked, ?_⟩
  have hgenesis' : ({ block with fChecked } : CBlock).getHash env.crypto ≠
      env.params.hashGenesisBlock := hgenesis
  rw [if_neg hgenesis'] at h
  cases pprev with
  | none => cases h
  | some prev =>
    obtain ⟨s, hloop, hfinish⟩ := bind_eq_ok.mp h
    exact ⟨prev, s, fChecked, rfl, hbest.symm, hhash, hloop, hfinish⟩

theorem finishBlock_view {prev : CBlockIndex} {s : ConnectState}
    (h : finishBlock env block pindex prev s false = .ok res) :
    res.view = s.view.setBestBlock pindex.hashBlock ∧ res.blockundo = s.vtxundo := by
  unfold finishBlock at h
  cases hvtx : block.vtx with
  | nil =>
    rw [hvtx] at h
    cases h
  | cons coinbase rest =>
    rw [hvtx] at h
    obtain ⟨value, -, h⟩ := bind_eq_ok.mp h
    obtain ⟨⟨⟩, -, h⟩ := bind_eq_ok.mp h
    cases h
    exact ⟨rfl, rfl⟩

end WholeBlock

end Verium
