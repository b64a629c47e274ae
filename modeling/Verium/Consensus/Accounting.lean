import Verium.Consensus.ConnectSpec

/-!
The value of the ledger in exact arithmetic. Each transaction moves value from the coins it
spends to the coins it creates and to outputs that can never be spent; what `ConnectBlock`
sums up in 64 bits is these numbers modulo `2 ^ 64`.
-/

namespace Verium

open Lib

/-- The value of a coin. -/
def coinValue (coin : Coin) : ℤ :=
  coin.out.nValue.toInt

/-- The exact value of all unspent coins. -/
noncomputable def utxoValue (utxo : UtxoSet) : ℤ :=
  total coinValue utxo

/-- The value of the outputs that `AddCoin` drops. -/
def unspendableSum (vout : List CTxOut) : ℤ :=
  outputSum (vout.filter fun txout => isUnspendable txout.scriptPubKey)

/-- The value a transaction takes out of the ledger. -/
def txValueIn (utxo : UtxoSet) (tx : CTransaction) : ℤ :=
  if tx.isCoinBase then 0 else coinSum (inputCoins utxo tx.vin)

section OneTransaction

variable {crypto : Crypto} {nHeight : Nat} {utxo : UtxoSet} {tx : CTransaction}

theorem createdCoins_value (crypto : Crypto) (nHeight : Nat) (tx : CTransaction) :
    ((createdCoins crypto tx nHeight).map fun e => coinValue e.2).sum +
      unspendableSum tx.vout = outputSum tx.vout := by
  have hsum : ∀ (vout : List CTxOut) (k : Nat),
      (((vout.zipIdx k).filterMap (createdCoin crypto tx nHeight)).map
          fun e => coinValue e.2).sum + unspendableSum vout = outputSum vout := by
    intro vout
    induction vout with
    | nil => simp [unspendableSum, outputSum]
    | cons txout rest ih =>
        intro k
        have hrest := ih (k + 1)
        rw [List.zipIdx_cons]
        cases hspendable : isUnspendable txout.scriptPubKey with
        | true =>
          have hnone : createdCoin crypto tx nHeight (txout, k) = none := by
            simp [createdCoin, hspendable]
          have hdrop : unspendableSum (txout :: rest) =
              txout.nValue.toInt + unspendableSum rest := by
            simp [unspendableSum, hspendable]
          rw [List.filterMap_cons_none hnone, hdrop, outputSum_cons, ← hrest]
          ring
        | false =>
          have hsome : createdCoin crypto tx nHeight (txout, k) =
              some (tx.outPoint crypto k, Coin.ofTxOut txout nHeight tx.isCoinBase) := by
            simp [createdCoin, hspendable]
          have hkeep : unspendableSum (txout :: rest) = unspendableSum rest := by
            simp [unspendableSum, hspendable]
          rw [List.filterMap_cons_some hsome, hkeep, outputSum_cons, ← hrest, List.map_cons,
            List.sum_cons]
          change txout.nValue.toInt + _ + _ = _
          ring
  exact hsum tx.vout 0

theorem utxoValue_spendTx (hfinite : FiniteEntries utxo)
    (hdistinct : (tx.vin.map CTxIn.prevout).Nodup) :
    utxoValue (spendTx utxo tx) = utxoValue utxo - txValueIn utxo tx := by
  unfold spendTx spentOutPoints txValueIn
  cases tx.isCoinBase with
  | true => simp
  | false =>
    simp only [Bool.false_eq_true, if_false]
    rw [utxoValue, total_eraseAll coinValue hfinite hdistinct, List.filterMap_map]
    rfl

/-- A transaction that overwrites nothing changes the value of the ledger by its outputs
less its inputs, apart from the outputs that are dropped. -/
theorem utxoValue_applyTx (hfinite : FiniteEntries utxo)
    (hdistinct : (tx.vin.map CTxIn.prevout).Nodup) (hlen : tx.vout.length ≤ 2 ^ 32)
    (hfresh : CreatesFresh crypto nHeight utxo tx) :
    utxoValue (applyTx crypto nHeight utxo tx) + unspendableSum tx.vout =
      utxoValue utxo + outputSum tx.vout - txValueIn utxo tx := by
  have hspend := utxoValue_spendTx hfinite hdistinct
  have hcreate := total_insertAll coinValue (hfinite.eraseAll (spentOutPoints tx))
    (createdCoins_keys_nodup hlen) hfresh
  have hvalue := createdCoins_value crypto nHeight tx
  unfold utxoValue at hspend ⊢
  rw [applyTx, spendTx, hcreate]
  rw [spendTx] at hspend
  omega

theorem finiteEntries_applyTx (hfinite : FiniteEntries utxo) :
    FiniteEntries (applyTx crypto nHeight utxo tx) :=
  (hfinite.eraseAll _).insertAll _

end OneTransaction

section Sums

variable (crypto : Crypto) (nHeight : Nat)

/-- The value the transactions of a list take out of the ledger, one after the other. -/
def blockValueIn : UtxoSet → List CTransaction → ℤ
  | _, [] => 0
  | utxo, tx :: rest =>
      txValueIn utxo tx + blockValueIn (applyTx crypto nHeight utxo tx) rest

/-- The exact fees of the spending transactions of a list; a fee can be negative. -/
def netFees : UtxoSet → List CTransaction → ℤ
  | _, [] => 0
  | utxo, tx :: rest =>
      (if tx.isCoinBase then 0 else coinSum (inputCoins utxo tx.vin) - outputSum tx.vout) +
        netFees (applyTx crypto nHeight utxo tx) rest

def blockValueOut (txs : List CTransaction) : ℤ :=
  (txs.map fun tx => outputSum tx.vout).sum

def blockUnspendable (txs : List CTransaction) : ℤ :=
  (txs.map fun tx => unspendableSum tx.vout).sum

theorem blockValueIn_snoc (utxo : UtxoSet) (txs : List CTransaction) (tx : CTransaction) :
    blockValueIn crypto nHeight utxo (txs ++ [tx]) =
      blockValueIn crypto nHeight utxo txs +
        txValueIn (applyTxs crypto nHeight utxo txs) tx := by
  induction txs generalizing utxo with
  | nil => simp [blockValueIn, applyTxs]
  | cons head rest ih =>
      simp only [List.cons_append, blockValueIn, ih]
      rw [applyTxs, applyTxs, List.foldl_cons, add_assoc]

theorem netFees_snoc (utxo : UtxoSet) (txs : List CTransaction) (tx : CTransaction) :
    netFees crypto nHeight utxo (txs ++ [tx]) =
      netFees crypto nHeight utxo txs +
        if tx.isCoinBase then 0 else
          coinSum (inputCoins (applyTxs crypto nHeight utxo txs) tx.vin) - outputSum tx.vout := by
  induction txs generalizing utxo with
  | nil => simp [netFees, applyTxs]
  | cons head rest ih =>
      simp only [List.cons_append, netFees, ih]
      rw [applyTxs, applyTxs, List.foldl_cons, add_assoc]

theorem applyTxs_snoc (utxo : UtxoSet) (txs : List CTransaction) (tx : CTransaction) :
    applyTxs crypto nHeight utxo (txs ++ [tx]) =
      applyTx crypto nHeight (applyTxs crypto nHeight utxo txs) tx := by
  simp [applyTxs]

/-- The fees are the inputs less the outputs of everything but a leading coinbase. -/
theorem netFees_eq {coinbase : CTransaction} {rest : List CTransaction}
    (hcoinbase : coinbase.isCoinBase = true) (hrest : ∀ tx ∈ rest, tx.isCoinBase = false)
    (utxo : UtxoSet) :
    netFees crypto nHeight utxo (coinbase :: rest) =
      blockValueIn crypto nHeight utxo (coinbase :: rest) -
        (blockValueOut (coinbase :: rest) - outputSum coinbase.vout) := by
  have htail : ∀ utxo, netFees crypto nHeight utxo rest =
      blockValueIn crypto nHeight utxo rest - blockValueOut rest := by
    induction rest with
    | nil => simp [netFees, blockValueIn, blockValueOut]
    | cons tx rest ih =>
        intro utxo
        rw [List.forall_mem_cons] at hrest
        simp only [netFees, blockValueIn, txValueIn, hrest.1, ih hrest.2, blockValueOut,
          Bool.false_eq_true, if_false, List.map_cons, List.sum_cons]
        ring
  simp only [netFees, blockValueIn, txValueIn, hcoinbase, if_true, htail, blockValueOut,
    List.map_cons, List.sum_cons]
  ring

end Sums

section Loop

variable {env : ConnectEnv} {nHeight : Nat} {fJustCheck : Bool} {block : CBlock}
  {view : CCoinsViewCache} {cache : List UInt256} {s : ConnectState}

/-- What the loop has added up after the transactions `done`, and what the ledger is then
worth. -/
structure LoopSums (env : ConnectEnv) (nHeight : Nat) (start : UtxoSet)
    (done : List CTransaction) (s : ConnectState) : Prop where
  nValueIn : s.nValueIn.toInt = wrap64 (blockValueIn env.crypto nHeight start done)
  nValueOut : s.nValueOut.toInt = wrap64 (blockValueOut done)
  nFees : s.nFees.toInt = wrap64 (netFees env.crypto nHeight start done)
  finite : FiniteEntries (applyTxs env.crypto nHeight start done)
  value : utxoValue (applyTxs env.crypto nHeight start done) + blockUnspendable done =
    utxoValue start + blockValueOut done - blockValueIn env.crypto nHeight start done

/-- The only coinbase of a checked block is the first transaction, and by BIP30 nothing is in
its way. -/
theorem coinbase_createsFresh (hchecked : CheckedBlock block.vtx)
    (hbip30 : ∀ o ∈ blockOutPoints env.crypto block.vtx, view.utxo o = none)
    {done post : List CTransaction} {tx : CTransaction} (hsplit : block.vtx = done ++ tx :: post)
    (hcoinbase : tx.isCoinBase = true) :
    CreatesFresh env.crypto nHeight (applyTxs env.crypto nHeight view.utxo done) tx := by
  obtain ⟨first, rest, hvtx, -, hrest⟩ := hchecked.coinbase
  cases done with
  | cons head tail =>
    rw [hvtx, List.cons_append] at hsplit
    have hmem : tx ∈ rest := by
      rw [(List.cons.inj hsplit).2]
      simp
    rw [hrest tx hmem] at hcoinbase
    cases hcoinbase
  | nil => exact createsFresh_coinbase (by rw [hsplit]; simp) hcoinbase hbip30

theorem connectTxs_sums (hchecked : CheckedBlock block.vtx) (hsound : view.FlagsSound)
    (hfinite : FiniteEntries view.utxo) {done post : List CTransaction}
    (hsplit : block.vtx = done ++ post)
    (h : connectTxs env block nHeight fJustCheck view cache done = .ok s) :
    LoopSums env nHeight view.utxo done s := by
  have hbip30 := connectTxs_bip30 h
  induction done using List.reverseRecOn generalizing s post with
  | nil =>
      obtain ⟨read, -, hstart⟩ := connectTxs_eq_ok.mp h
      rw [foldlM_nil_eq_ok] at hstart
      cases hstart
      exact ⟨rfl, rfl, rfl, hfinite, by simp [applyTxs, blockUnspendable, blockValueOut,
        blockValueIn]⟩
  | append_singleton done tx ih =>
      rw [List.append_assoc] at hsplit
      obtain ⟨mid, hdone, hlast⟩ := connectTxs_append.mp h
      obtain ⟨t, htx, hnil⟩ := foldlM_cons_eq_ok.mp hlast
      rw [foldlM_nil_eq_ok] at hnil
      cases hnil
      have hsums := ih hsplit hdone
      have hmem : tx ∈ block.vtx := by rw [hsplit]; simp
      have hcheckedTx := hchecked.checked tx hmem
      have hinv := connectTxs_inv hchecked.checked hsound
        (fun tx' h' => by rw [hsplit]; exact List.mem_append_left _ h') hdone
      have hfresh : CreatesFresh env.crypto nHeight
          (applyTxs env.crypto nHeight view.utxo done) tx := by
        rw [← hinv.utxo]
        refine (hinv.step hcheckedTx hmem htx).2.elim (fun hcoinbase => ?_) id
        rw [hinv.utxo]
        exact coinbase_createsFresh hchecked hbip30 hsplit hcoinbase
      obtain ⟨s', undo, hadmitted, -, ht⟩ := connectTx_ok htx
      have hvalue := utxoValue_applyTx hsums.finite hcheckedTx.distinct hcheckedTx.vout_length
        hfresh
      refine ⟨?_, ?_, ?_, ?_, ?_⟩
      · rw [ht, hadmitted.nValueIn, hsums.nValueIn, blockValueIn_snoc, txValueIn,
          hinv.utxo]
        split
        · rw [add_zero]
        · rw [wrap64_wrap64_add]
      · rw [ht, hadmitted.nValueOut, hsums.nValueOut, wrap64_wrap64_add]
        simp [blockValueOut]
      · rw [ht, hadmitted.nFees, hsums.nFees, netFees_snoc, hinv.utxo]
        split
        · rw [add_zero]
        · rw [wrap64_wrap64_add]
      · rw [applyTxs_snoc]
        exact finiteEntries_applyTx hsums.finite
      · have hbefore := hsums.value
        rw [applyTxs_snoc, blockValueIn_snoc]
        simp only [blockUnspendable, blockValueOut, List.map_append, List.map_cons,
          List.map_nil, List.sum_append, List.sum_cons, List.sum_nil] at hbefore ⊢
        omega

end Loop

end Verium
