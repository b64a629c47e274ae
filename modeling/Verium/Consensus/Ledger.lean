import Verium.Consensus.ConnectBlock
import Verium.Consensus.Values
import Verium.Lib.PartialMap

/-!
The ledger a block works on, without the cache: a transaction removes the coins its inputs
name and writes its spendable outputs. `UpdateCoins` refines this: when it returns, the view
stands for the ledger after the transaction.
-/

namespace Verium

open Lib CCoinsViewCache

/-- The UTXO set as a partial map. -/
abbrev UtxoSet := COutPoint → Option Coin

section Transactions

variable (crypto : Crypto)

/-- The coin an output creates, if the output is spendable at all. -/
def createdCoin (tx : CTransaction) (nHeight : Nat) (output : CTxOut × Nat) :
    Option (COutPoint × Coin) :=
  if isUnspendable output.1.scriptPubKey then none
  else some (tx.outPoint crypto output.2, Coin.ofTxOut output.1 nHeight tx.isCoinBase)

def createdCoins (tx : CTransaction) (nHeight : Nat) : List (COutPoint × Coin) :=
  tx.vout.zipIdx.filterMap (createdCoin crypto tx nHeight)

/-- The outpoints a transaction spends; the input of a coinbase names none. -/
def spentOutPoints (tx : CTransaction) : List COutPoint :=
  if tx.isCoinBase then [] else tx.vin.map CTxIn.prevout

/-- The ledger after the inputs of a transaction are spent. -/
def spendTx (utxo : UtxoSet) (tx : CTransaction) : UtxoSet :=
  eraseAll utxo (spentOutPoints tx)

/-- The ledger after a transaction. -/
def applyTx (nHeight : Nat) (utxo : UtxoSet) (tx : CTransaction) : UtxoSet :=
  insertAll (spendTx utxo tx) (createdCoins crypto tx nHeight)

/-- The ledger after some transactions. -/
def applyTxs (nHeight : Nat) (utxo : UtxoSet) (txs : List CTransaction) : UtxoSet :=
  txs.foldl (applyTx crypto nHeight) utxo

/-- No output of the transaction lands on a coin that is unspent after its inputs are. -/
def CreatesFresh (nHeight : Nat) (utxo : UtxoSet) (tx : CTransaction) : Prop :=
  ∀ e ∈ createdCoins crypto tx nHeight, spendTx utxo tx e.1 = none

end Transactions

section SpendInputs

variable {view view' : CCoinsViewCache} {undo undo' : List Coin}

theorem spendInput_eq_ok {txin : CTxIn} {s : List Coin × CCoinsViewCache} :
    spendInput (undo, view) txin = .ok s ↔
      ∃ coin view', view.spendCoin txin.prevout = some (coin, view') ∧
        s = (undo ++ [coin], view') := by
  rw [spendInput]
  cases view.spendCoin txin.prevout with
  | none => simp
  | some spent =>
    constructor
    · intro h
      cases h
      exact ⟨_, _, rfl, rfl⟩
    · rintro ⟨coin, view', hspent, rfl⟩
      cases hspent
      rfl

theorem foldlM_spendInput {vin : List CTxIn} (hsound : view.FlagsSound)
    (h : vin.foldlM spendInput (undo, view) = .ok (undo', view')) :
    view.WritesTo view' (eraseAll view.utxo (vin.map CTxIn.prevout)) := by
  induction vin generalizing undo view with
  | nil =>
      rw [foldlM_nil_eq_ok] at h
      cases h
      exact (ReadsTo.refl _).writesTo hsound
  | cons txin rest ih =>
      obtain ⟨s, hstep, hrest⟩ := foldlM_cons_eq_ok.mp h
      obtain ⟨coin, mid, hspend, rfl⟩ := spendInput_eq_ok.mp hstep
      obtain ⟨-, hwrite⟩ := spendCoin_writesTo hsound hspend
      have hmid := ih hwrite.flagsSound hrest
      rw [hwrite.utxo] at hmid
      exact hwrite.trans hmid

/-- The undo data of inputs on the ledger `utxo`: the coins that they name. -/
def UndoOf (utxo : UtxoSet) (vin : List CTxIn) (txundo : List Coin) : Prop :=
  List.Forall₂ (fun txin coin => utxo txin.prevout = some coin) vin txundo

theorem foldlM_spendInput_available {vin : List CTxIn} (undo : List Coin)
    (hsound : view.FlagsSound) (havail : Available view.utxo vin)
    (hdistinct : (vin.map CTxIn.prevout).Nodup) :
    ∃ coins view', vin.foldlM spendInput (undo, view) = .ok (undo ++ coins, view') ∧
      UndoOf view.utxo vin coins := by
  induction vin generalizing undo view with
  | nil => exact ⟨[], view, by rw [List.append_nil]; rfl, .nil⟩
  | cons txin rest ih =>
      obtain ⟨hsome, hrest⟩ := available_cons.mp havail
      rw [List.map_cons, List.nodup_cons] at hdistinct
      obtain ⟨coin, hcoin⟩ := Option.isSome_iff_exists.mp hsome
      cases hspend : view.spendCoin txin.prevout with
      | none =>
        rw [utxo_of_spendCoin_none hspend] at hcoin
        cases hcoin
      | some spent =>
        obtain ⟨hat, hwrite⟩ := spendCoin_writesTo hsound hspend
        -- the remaining inputs name other outpoints, which are as before
        have hother : ∀ other ∈ rest, spent.2.utxo other.prevout = view.utxo other.prevout := by
          intro other hmem
          rw [hwrite.utxo, Function.update_of_ne]
          intro heq
          exact hdistinct.1 (heq ▸ List.mem_map_of_mem hmem)
        obtain ⟨coins, view', hloop, hcoins⟩ := ih (undo ++ [spent.1]) hwrite.flagsSound
          (fun other hmem => hother other hmem ▸ hrest other hmem) hdistinct.2
        refine ⟨spent.1 :: coins, view', foldlM_cons_eq_ok.mpr
          ⟨_, spendInput_eq_ok.mpr ⟨spent.1, spent.2, hspend, rfl⟩, ?_⟩, .cons ?_ ?_⟩
        · rw [hloop, List.append_assoc]
          rfl
        · rw [hcoin, ← hat, (utxo_eq_some.mp hcoin).1]
        · obtain ⟨hsize, hpairs⟩ := List.forall₂_iff_zip.mp hcoins
          refine List.forall₂_iff_zip.mpr ⟨hsize, fun hpair => ?_⟩
          rw [← hother _ (List.of_mem_zip hpair).1]
          exact hpairs hpair

end SpendInputs

section AddOutputs

variable {crypto : Crypto} {view : CCoinsViewCache} {tx : CTransaction} {nHeight : Nat}
  {outs : COutPoint → Prop}

theorem OutputsInRange.not_isNull {vout : List CTxOut} (h : OutputsInRange vout) :
    ∀ txout ∈ vout, txout.isNull = false := by
  intro txout hmem
  have hnonneg := h.nonneg txout hmem
  cases hnull : txout.isNull with
  | false => rfl
  | true =>
    have hvalue : txout.nValue = -1 := by simpa [CTxOut.isNull] using hnull
    rw [hvalue] at hnonneg
    exact absurd hnonneg (by decide)

theorem createdCoin_eq_some {output : CTxOut × Nat} {e : COutPoint × Coin}
    (h : createdCoin crypto tx nHeight output = some e) :
    isUnspendable output.1.scriptPubKey = false ∧ e.1 = tx.outPoint crypto output.2 ∧
      e.2 = Coin.ofTxOut output.1 nHeight tx.isCoinBase := by
  unfold createdCoin at h
  cases hspendable : isUnspendable output.1.scriptPubKey with
  | true => simp [hspendable] at h
  | false =>
    rw [hspendable] at h
    cases h
    exact ⟨rfl, rfl, rfl⟩

theorem addOutput_unspendable {output : CTxOut × Nat} (hnull : output.1.isNull = false)
    (h : createdCoin crypto tx nHeight output = none) :
    view.addOutput crypto tx nHeight false output = .ok view := by
  have hunspendable : isUnspendable output.1.scriptPubKey = true := by
    simpa [createdCoin] using h
  have hunspent : (Coin.ofTxOut output.1 nHeight tx.isCoinBase).isSpent = false := hnull
  exact addCoin_unspendable hunspent hunspendable _

/-- The exception that `AddCoin` throws. -/
def replacesCoin : Failure :=
  .exception "Adding new coin that replaces non-pruned entry"

/-- The transaction is a coinbase, or nothing unspent is in the way of the coins. -/
def Clear (tx : CTransaction) (utxo : UtxoSet) (created : List (COutPoint × Coin)) : Prop :=
  tx.isCoinBase = true ∨ ∀ e ∈ created, utxo e.1 = none

theorem addOutput_ends {output : CTxOut × Nat} {e : COutPoint × Coin} (hsound : view.FlagsSound)
    (hcovers : view.Covers outs) (hout : outs (tx.outPoint crypto output.2))
    (hnull : output.1.isNull = false) (hcreated : createdCoin crypto tx nHeight output = some e) :
    Ends (fun failure => failure = replacesCoin ∧ ¬ Clear tx view.utxo [e])
      (view.addOutput crypto tx nHeight false output) fun view' =>
        Clear tx view.utxo [e] ∧
          view.WritesTo view' (Function.update view.utxo e.1 (some e.2)) := by
  obtain ⟨hspendable, hkey, hcoin⟩ := createdCoin_eq_some hcreated
  have hunspent : (Coin.ofTxOut output.1 nHeight tx.isCoinBase).isSpent = false := hnull
  have hclear : ¬ (tx.isCoinBase = false ∧
      (view.emplacedEntry (tx.outPoint crypto output.2)).coin.isSpent = false) ↔
        Clear tx view.utxo [e] := by
    rw [Clear, List.forall_mem_singleton, hkey,
      ← emplacedEntry_isSpent hcovers hout]
    simp [or_iff_not_imp_left]
  change Ends _ (view.addCoin _ _ _) _
  rw [addCoin_spendable hunspent hspendable]
  split
  next hblocked => exact ⟨rfl, mt hclear.mpr (not_not.mpr hblocked)⟩
  next hfree =>
    refine ⟨hclear.mp hfree, ?_⟩
    rw [hkey, hcoin]
    exact storeCoin_writesTo hsound hcovers hout hunspent fun hspend =>
      Bool.eq_true_of_not_eq_false fun hentry => hfree ⟨hspend, hentry⟩

section AllOutputs

variable {outputs : List (CTxOut × Nat)}

theorem created_ne {k : COutPoint}
    (hk : k ∉ outputs.map fun output => tx.outPoint crypto output.2) :
    ∀ e ∈ outputs.filterMap (createdCoin crypto tx nHeight), e.1 ≠ k := by
  rintro e he rfl
  obtain ⟨output, hmem, hcreated⟩ := List.mem_filterMap.mp he
  exact hk (List.mem_map.mpr ⟨output, hmem, (createdCoin_eq_some hcreated).2.1.symm⟩)

/-- The loop of `AddCoins` writes the created coins, unless the transaction is no coinbase and
one of its outputs lands on an unspent coin, which makes it throw. -/
theorem foldlM_addOutput_ends (hsound : view.FlagsSound) (hcovers : view.Covers outs)
    (hout : ∀ output ∈ outputs, outs (tx.outPoint crypto output.2))
    (hnull : ∀ output ∈ outputs, output.1.isNull = false)
    (hdistinct : (outputs.map fun output => tx.outPoint crypto output.2).Nodup) :
    Ends (fun failure => failure = replacesCoin ∧
        ¬ Clear tx view.utxo (outputs.filterMap (createdCoin crypto tx nHeight)))
      (outputs.foldlM (addOutput crypto tx nHeight false) view) fun view' =>
        Clear tx view.utxo (outputs.filterMap (createdCoin crypto tx nHeight)) ∧
          view.WritesTo view'
            (insertAll view.utxo (outputs.filterMap (createdCoin crypto tx nHeight))) := by
  induction outputs generalizing view with
  | nil => exact ⟨.inr nofun, (ReadsTo.refl view).writesTo hsound⟩
  | cons output rest ih =>
      rw [List.forall_mem_cons] at hout hnull
      rw [List.map_cons, List.nodup_cons] at hdistinct
      rw [List.foldlM_cons]
      cases hcreated : createdCoin crypto tx nHeight output with
      | none =>
        rw [List.filterMap_cons_none hcreated, addOutput_unspendable hnull.1 hcreated]
        exact ih hsound hcovers hout.2 hnull.2 hdistinct.2
      | some e =>
        rw [List.filterMap_cons_some hcreated]
        obtain ⟨mid, hok, hfree, hwrite⟩ | ⟨_, ⟨rfl, hblocked⟩, herror⟩ :=
          (addOutput_ends hsound hcovers hout.1 hnull.1 hcreated).cases
        · -- the coin just written is in the way of none of the others
          have hkey := (createdCoin_eq_some hcreated).2.1
          have hclear : Clear tx view.utxo (e :: rest.filterMap (createdCoin crypto tx nHeight)) ↔
              Clear tx mid.utxo (rest.filterMap (createdCoin crypto tx nHeight)) := by
            rw [Clear, List.forall_mem_singleton] at hfree
            rw [Clear, List.forall_mem_cons, or_and_left, and_iff_right hfree]
            refine or_congr Iff.rfl (forall₂_congr fun e' he' => ?_)
            rw [hwrite.utxo, Function.update_of_ne (hkey ▸ created_ne hdistinct.1 e' he')]
          rw [hok, ok_bind, hclear]
          refine (ih hwrite.flagsSound (hwrite.covers outs hcovers) hout.2 hnull.2
            hdistinct.2).mono fun view' ⟨hrest, hwrite'⟩ => ⟨hrest, ?_⟩
          rw [hwrite.utxo] at hwrite'
          exact hwrite.trans hwrite'
        · rw [herror]
          refine ⟨rfl, fun h => hblocked (h.imp id fun hnone => ?_)⟩
          exact List.forall_mem_singleton.mpr (hnone e List.mem_cons_self)

end AllOutputs

end AddOutputs

section UpdateCoins

theorem outPoints_nodup (crypto : Crypto) {tx : CTransaction} (hlen : tx.vout.length ≤ 2 ^ 32) :
    (tx.vout.zipIdx.map fun output => tx.outPoint crypto output.2).Nodup := by
  have hmap : (tx.vout.zipIdx.map fun output => tx.outPoint crypto output.2) =
      (List.range' 0 tx.vout.length).map (tx.outPoint crypto) := by
    rw [← List.zipIdx_map_snd 0 tx.vout, List.map_map]
    rfl
  rw [hmap]
  refine List.Nodup.map_on ?_ List.nodup_range'
  intro i hi j hj heq
  simp only [List.mem_range'_1, zero_le, zero_add, true_and] at hi hj
  have hidx : UInt32.ofNat i = UInt32.ofNat j := congrArg COutPoint.n heq
  rw [← UInt32.toNat_ofNat_of_lt' (show i < 2 ^ 32 by omega),
    ← UInt32.toNat_ofNat_of_lt' (show j < 2 ^ 32 by omega), hidx]

variable {crypto : Crypto} {view view' : CCoinsViewCache} {tx : CTransaction} {nHeight : Nat}
  {outs : COutPoint → Prop}

theorem createdCoins_keys_nodup (hlen : tx.vout.length ≤ 2 ^ 32) :
    ((createdCoins crypto tx nHeight).map Prod.fst).Nodup := by
  have hdistinct := outPoints_nodup crypto hlen
  unfold createdCoins
  generalize tx.vout.zipIdx = outputs at hdistinct ⊢
  induction outputs with
  | nil => simp
  | cons output rest ih =>
      rw [List.map_cons, List.nodup_cons] at hdistinct
      cases hcreated : createdCoin crypto tx nHeight output with
      | none =>
        rw [List.filterMap_cons_none hcreated]
        exact ih hdistinct.2
      | some e =>
        rw [List.filterMap_cons_some hcreated, List.map_cons, List.nodup_cons]
        refine ⟨?_, ih hdistinct.2⟩
        intro hmem
        obtain ⟨e', he', hkey⟩ := List.mem_map.mp hmem
        refine created_ne hdistinct.1 e' he' ?_
        rw [hkey, (createdCoin_eq_some hcreated).2.1]

theorem spendInputs_writesTo {s : List Coin × CCoinsViewCache} (hsound : view.FlagsSound)
    (h : spendInputs tx view = .ok s) : view.WritesTo s.2 (spendTx view.utxo tx) := by
  unfold spendInputs at h
  unfold spendTx spentOutPoints
  cases hcb : tx.isCoinBase with
  | true =>
    rw [hcb] at h
    cases h
    exact (ReadsTo.refl view).writesTo hsound
  | false =>
    rw [hcb] at h
    exact foldlM_spendInput hsound h

/-- What the rest of `ConnectBlock` has made sure of before it calls `UpdateCoins`. -/
structure CanUpdate (crypto : Crypto) (view : CCoinsViewCache) (outs : COutPoint → Prop)
    (tx : CTransaction) : Prop where
  flagsSound : view.FlagsSound
  covers : view.Covers outs
  out : ∀ i < tx.vout.length, outs (tx.outPoint crypto i)
  outputs : OutputsInRange tx.vout
  length : tx.vout.length ≤ 2 ^ 32

theorem CanUpdate.of_writesTo {utxo' : UtxoSet} (hcan : CanUpdate crypto view outs tx)
    (h : view.WritesTo view' utxo') : CanUpdate crypto view' outs tx :=
  ⟨h.flagsSound, h.covers outs hcan.covers, hcan.out, hcan.outputs, hcan.length⟩

section AddCoins

variable (hcan : CanUpdate crypto view outs tx)

include hcan

theorem addCoins_ends (nHeight : Nat) :
    Ends (fun failure => failure = replacesCoin ∧
        ¬ Clear tx view.utxo (createdCoins crypto tx nHeight))
      (view.addCoins crypto tx nHeight false) fun view' =>
        Clear tx view.utxo (createdCoins crypto tx nHeight) ∧
          view.WritesTo view' (insertAll view.utxo (createdCoins crypto tx nHeight)) :=
  foldlM_addOutput_ends hcan.flagsSound hcan.covers
    (fun output hmem => hcan.out output.2 (List.snd_lt_of_mem_zipIdx hmem))
    (fun output hmem => hcan.outputs.not_isNull output.1 (List.fst_mem_of_mem_zipIdx hmem))
    (outPoints_nodup crypto hcan.length)

end AddCoins

/-- When `UpdateCoins` returns, the view stands for the ledger after the transaction, and
only a coinbase can have overwritten an unspent coin. -/
theorem updateCoins_writesTo {undo : List Coin} (hcan : CanUpdate crypto view outs tx)
    (h : updateCoins crypto tx view nHeight = .ok (undo, view')) :
    view.WritesTo view' (applyTx crypto nHeight view.utxo tx) ∧
      (tx.isCoinBase = true ∨ CreatesFresh crypto nHeight view.utxo tx) := by
  obtain ⟨⟨spentCoins, spent⟩, hspend, h⟩ := bind_eq_ok.mp h
  obtain ⟨added, hadd, h⟩ := bind_eq_ok.mp h
  cases h
  have hwrite := spendInputs_writesTo hcan.flagsSound hspend
  have hutxo : spent.utxo = spendTx view.utxo tx := hwrite.utxo
  have hends := addCoins_ends (hcan.of_writesTo hwrite) nHeight
  rw [hadd, hutxo] at hends
  exact ⟨hwrite.trans hends.2, hends.1⟩

/-- Given distinct available inputs, `UpdateCoins` returns unless an output lands on an
unspent coin, which makes it throw. -/
theorem updateCoins_ends (hcan : CanUpdate crypto view outs tx)
    (hspendable : tx.isCoinBase = true ∨ Available view.utxo tx.vin)
    (hdistinct : (tx.vin.map CTxIn.prevout).Nodup) :
    EndsCleanly (updateCoins crypto tx view nHeight) ↔
      tx.isCoinBase = true ∨ CreatesFresh crypto nHeight view.utxo tx := by
  have hspend : ∃ s, spendInputs tx view = .ok s := by
    unfold spendInputs
    cases hcb : tx.isCoinBase with
    | true => exact ⟨_, rfl⟩
    | false =>
      rw [hcb] at hspendable
      obtain ⟨coins, spent, hspent, -⟩ := foldlM_spendInput_available [] hcan.flagsSound
        (hspendable.resolve_left Bool.false_ne_true) hdistinct
      exact ⟨_, hspent⟩
  obtain ⟨⟨spentCoins, spent⟩, hs⟩ := hspend
  have hwrite := spendInputs_writesTo hcan.flagsSound hs
  have hutxo : spent.utxo = spendTx view.utxo tx := hwrite.utxo
  have hends := addCoins_ends (hcan.of_writesTo hwrite) nHeight
  rw [hutxo] at hends
  rw [updateCoins, hs, ok_bind]
  dsimp only at hends ⊢
  obtain ⟨added, hadd, hclear, -⟩ | ⟨_, ⟨rfl, hblocked⟩, herror⟩ := hends.cases
  · rw [hadd]
    exact iff_of_true (endsCleanly_ok _) hclear
  · rw [herror, error_bind, replacesCoin, endsCleanly_error]
    exact iff_of_false id hblocked

end UpdateCoins

end Verium
