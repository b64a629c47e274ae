import Verium.Consensus.ConnectBlock

/-!
`DisconnectBlock`: take a block off a coins view with its undo data. The transactions are undone
from the last to the first; each time the outputs are spent and compared with what the block
created, and then the inputs are restored from the last to the first.
-/

namespace Verium

open Lib

/-- Why `DisconnectBlock` stops early: it returns `DISCONNECT_FAILED`, or the process does not
get further. -/
inductive DisconnectStop where
  | failed
  | failure (failure : Failure)

/-- `enum DisconnectResult`, with the view. After a failure the view is indeterminate and no
caller uses it. -/
inductive DisconnectResult where
  | ok (view : CCoinsViewCache)
  | unclean (view : CCoinsViewCache)
  | failed

def maxOutputsPerBlock : Nat :=
  maxBlockWeight / (witnessScaleFactor * CTxOut.null.serialize.length)

/-- The loop of `AccessByTxid` over the next `remaining` indices. -/
def accessByTxidFrom (txid : UInt256) : (remaining n : Nat) → CCoinsViewCache →
    Coin × CCoinsViewCache
  | 0, _, view => (Coin.empty, view)
  | remaining + 1, n, view =>
      let (alternate, view) := view.accessCoin ⟨txid, UInt32.ofNat n⟩
      if alternate.isSpent then accessByTxidFrom txid remaining (n + 1) view
      else (alternate, view)

/-- `AccessByTxid`: some unspent output of the transaction. -/
def accessByTxid (view : CCoinsViewCache) (txid : UInt256) : Coin × CCoinsViewCache :=
  accessByTxidFrom txid maxOutputsPerBlock 0 view

/-- The coin `ApplyTxInUndo` restores. A height of zero marks undo data of older versions, which
had the metadata only once for each transaction. -/
def undoCoin (undo : Coin) (view : CCoinsViewCache) (out : COutPoint) :
    Except DisconnectStop (Coin × CCoinsViewCache) :=
  if undo.nHeight = 0 then
    let (alternate, view) := accessByTxid view out.hash
    if alternate.isSpent then .error .failed
    else .ok ({ undo with nHeight := alternate.nHeight, fCoinBase := alternate.fCoinBase }, view)
  else .ok (undo, view)

/-- `ApplyTxInUndo`, with whether it was clean. -/
def applyTxInUndo (undo : Coin) (view : CCoinsViewCache) (out : COutPoint) :
    Except DisconnectStop (Bool × CCoinsViewCache) := do
  let (found, view) := view.haveCoin out
  let (undo, view) ← undoCoin undo view out
  let view ← (view.addCoin out undo found).mapError .failure
  return (!found, view)

section DisconnectBlock

variable (crypto : Crypto)

/-- Spend one output of a transaction and compare it with what the block has. -/
def undoOutput (tx : CTransaction) (nHeight : Nat) :
    Bool × CCoinsViewCache → CTxOut × Nat → Bool × CCoinsViewCache
  | (fClean, view), (txout, o) =>
      if isUnspendable txout.scriptPubKey then (fClean, view)
      else
        match view.spendCoin (tx.outPoint crypto o) with
        | none => (false, view)
        | some (coin, view) =>
            if txout ≠ coin.out ∨ nHeight ≠ coin.nHeight ∨ tx.isCoinBase ≠ coin.fCoinBase then
              (false, view)
            else (fClean, view)

def undoOutputs (tx : CTransaction) (nHeight : Nat) (s : Bool × CCoinsViewCache) :
    Bool × CCoinsViewCache :=
  tx.vout.zipIdx.foldl (undoOutput crypto tx nHeight) s

def undoInput : Bool × CCoinsViewCache → CTxIn × Coin →
    Except DisconnectStop (Bool × CCoinsViewCache)
  | (fClean, view), (txin, undo) => do
      let (clean, view) ← applyTxInUndo undo view txin.prevout
      return (fClean && clean, view)

def undoInputs (tx : CTransaction) (txundo : List Coin) (s : Bool × CCoinsViewCache) :
    Except DisconnectStop (Bool × CCoinsViewCache) := do
  -- transaction and undo data inconsistent
  rejectIf (txundo.length ≠ tx.vin.length) .failed
  (tx.vin.zip txundo).reverse.foldlM undoInput s

/-- Undo a transaction after the first. -/
def undoTx (nHeight : Nat) (s : Bool × CCoinsViewCache) (undone : CTransaction × List Coin) :
    Except DisconnectStop (Bool × CCoinsViewCache) :=
  undoInputs undone.1 undone.2 (undoOutputs crypto undone.1 nHeight s)

/-- The loop over the transactions. -/
def undoTxs (nHeight : Nat) (view : CCoinsViewCache) (vtx : List CTransaction)
    (vtxundo : List (List Coin)) : Except DisconnectStop (Bool × CCoinsViewCache) :=
  match vtx with
  | [] => .error .failed
  | coinbase :: rest => do
      -- block and undo data inconsistent
      rejectIf (vtxundo.length + 1 ≠ vtx.length) .failed
      let s ← (rest.zip vtxundo).reverse.foldlM (undoTx crypto nHeight) (true, view)
      return undoOutputs crypto coinbase nHeight s

/-- `DisconnectBlock(block, pindex, view)`, where `pprev` is the entry `pindex->pprev` points to
and `blockUndo` what `UndoReadFromDisk` reads. -/
def disconnectBlock (block : CBlock) (pindex : CBlockIndex) (pprev : Option CBlockIndex)
    (blockUndo : Option (List (List Coin))) (view : CCoinsViewCache) : Result DisconnectResult :=
  match blockUndo with
  | none => .ok .failed
  | some vtxundo =>
      match undoTxs crypto pindex.nHeight view block.vtx vtxundo with
      | .error .failed => .ok .failed
      | .error (.failure failure) => .error failure
      | .ok (fClean, view) =>
          match pprev with
          | none => .error (.assertion "pindex->pprev")
          | some pprev =>
              let view := view.setBestBlock pprev.hashBlock
              .ok (if fClean then .ok view else .unclean view)

end DisconnectBlock

end Verium
