import Verium.Consensus.MerkleCommit
import Verium.Consensus.TxVerify
import Verium.Lib.MerkleNodes

/-!
`CPartialMerkleTree`: the proof that some transactions are in a block. It is built by a walk from
the root that goes down where a wanted transaction is below, and read back by the same walk.
-/

namespace Verium

open Lib

structure CPartialMerkleTree where
  nTransactions : Nat
  vBits : List Bool
  vHash : List UInt256
  fBad : Bool
deriving DecidableEq, Repr

def calcTreeWidth (nTransactions height : Nat) : Nat :=
  (nTransactions + (1 <<< height) - 1) >>> height

/-- The loop that calculates the height of the tree. -/
def treeHeightLoop (nTransactions : Nat) : (fuel nHeight : Nat) → Nat
  | 0, nHeight => nHeight
  | fuel + 1, nHeight =>
      if 1 < calcTreeWidth nTransactions nHeight then
        treeHeightLoop nTransactions fuel (nHeight + 1)
      else nHeight

/-- A tree is never higher than it has leaves. -/
def treeHeight (nTransactions : Nat) : Nat :=
  treeHeightLoop nTransactions nTransactions 0

section Build

variable (hash : Bytes → UInt256) (nTransactions : Nat) (vTxid : List UInt256) (vMatch : List Bool)

def calcHash : (height pos : Nat) → Result UInt256
  | 0, pos => do
      assertThat (vTxid.length ≠ 0) "vTxid.size() != 0"
      return vTxid.getD pos 0
  | height + 1, pos => do
      assertThat (vTxid.length ≠ 0) "vTxid.size() != 0"
      let left ← calcHash height (2 * pos)
      let right ←
        if 2 * pos + 1 < calcTreeWidth nTransactions height then calcHash height (2 * pos + 1)
        else pure left
      return merklePair hash left right

/-- Whether the node is the parent of at least one matched txid. -/
def parentOfMatch (height pos : Nat) : Bool :=
  (List.range' (pos <<< height) (((pos + 1) <<< height) - (pos <<< height))).any fun p =>
    p < nTransactions && vMatch.getD p false

/-- `TraverseAndBuild(height, pos, vTxid, vMatch)`, which appends to the bits and the hashes. -/
def traverseAndBuild : (height pos : Nat) → List Bool × List UInt256 →
    Result (List Bool × List UInt256)
  | 0, pos, (vBits, vHash) => do
      let hash ← calcHash hash nTransactions vTxid 0 pos
      return (vBits ++ [parentOfMatch nTransactions vMatch 0 pos], vHash ++ [hash])
  | height + 1, pos, (vBits, vHash) => do
      let fParentOfMatch := parentOfMatch nTransactions vMatch (height + 1) pos
      let vBits := vBits ++ [fParentOfMatch]
      if ¬ fParentOfMatch then
        let hash ← calcHash hash nTransactions vTxid (height + 1) pos
        return (vBits, vHash ++ [hash])
      else
        let built ← traverseAndBuild height (2 * pos) (vBits, vHash)
        if 2 * pos + 1 < calcTreeWidth nTransactions height then
          traverseAndBuild height (2 * pos + 1) built
        else return built

end Build

/-- `CPartialMerkleTree(vTxid, vMatch)`. -/
def CPartialMerkleTree.ofTxids (hash : Bytes → UInt256) (vTxid : List UInt256)
    (vMatch : List Bool) : Result CPartialMerkleTree := do
  let nTransactions := vTxid.length
  let (vBits, vHash) ←
    traverseAndBuild hash nTransactions vTxid vMatch (treeHeight nTransactions) 0 ([], [])
  return ⟨nTransactions, vBits, vHash, false⟩

/-- What `TraverseAndExtract` changes. -/
structure ExtractState where
  nBitsUsed : Nat
  nHashUsed : Nat
  vMatch : List UInt256
  vnIndex : List Nat
  fBad : Bool
deriving DecidableEq, Repr

def minTransactionWeight : Nat := witnessScaleFactor * 60

namespace CPartialMerkleTree

variable (hash : Bytes → UInt256) (t : CPartialMerkleTree)

/-- `TraverseAndExtract` at a node where it does not descend: the next stored hash, which at
height 0 is that of a matched transaction if the bit is set. -/
def useHash (height pos : Nat) (fParentOfMatch : Bool) (s : ExtractState) :
    UInt256 × ExtractState :=
  match t.vHash[s.nHashUsed]? with
  | none => (0, { s with fBad := true })
  | some hash =>
      let s := { s with nHashUsed := s.nHashUsed + 1 }
      if height = 0 ∧ fParentOfMatch then
        (hash, { s with vMatch := s.vMatch ++ [hash], vnIndex := s.vnIndex ++ [pos] })
      else (hash, s)

def traverseAndExtract : (height pos : Nat) → ExtractState → UInt256 × ExtractState
  | 0, pos, s =>
      match t.vBits[s.nBitsUsed]? with
      | none => (0, { s with fBad := true })
      | some fParentOfMatch =>
          t.useHash 0 pos fParentOfMatch { s with nBitsUsed := s.nBitsUsed + 1 }
  | height + 1, pos, s =>
      match t.vBits[s.nBitsUsed]? with
      | none => (0, { s with fBad := true })
      | some false => t.useHash (height + 1) pos false { s with nBitsUsed := s.nBitsUsed + 1 }
      | some true =>
          let left := traverseAndExtract height (2 * pos) { s with nBitsUsed := s.nBitsUsed + 1 }
          if 2 * pos + 1 < calcTreeWidth t.nTransactions height then
            let right := traverseAndExtract height (2 * pos + 1) left.2
            -- the transactions below the two are different, so equal hashes are a forgery
            (merklePair hash left.1 right.1,
              if right.1 = left.1 then { right.2 with fBad := true } else right.2)
          else (merklePair hash left.1 left.1, left.2)

/-- `ExtractMatches(vMatch, vnIndex)`: the root, or the null hash in case of failure. The indices
are appended to what `vnIndex` holds. -/
def extractMatches (vnIndex : List Nat) : UInt256 × ExtractState :=
  let s : ExtractState := ⟨0, 0, [], vnIndex, t.fBad⟩
  if t.nTransactions = 0 then (0, s)
  else if maxBlockWeight / minTransactionWeight < t.nTransactions then (0, s)
  else if t.nTransactions < t.vHash.length then (0, s)
  else if t.vBits.length < t.vHash.length then (0, s)
  else
    let (hashMerkleRoot, s) := t.traverseAndExtract hash (treeHeight t.nTransactions) 0 s
    if s.fBad then (0, s)
    -- all bits are used, up to the padding of the last byte
    else if (s.nBitsUsed + 7) / 8 ≠ (t.vBits.length + 7) / 8 then (0, s)
    else if s.nHashUsed ≠ t.vHash.length then (0, s)
    else (hashMerkleRoot, s)

/-- The pairs that `TraverseAndExtract` hashes. -/
def hashedPairs : (height pos : Nat) → ExtractState → List (UInt256 × UInt256)
  | 0, _, _ => []
  | height + 1, pos, s =>
      match t.vBits[s.nBitsUsed]? with
      | some true =>
          let s := { s with nBitsUsed := s.nBitsUsed + 1 }
          let left := t.traverseAndExtract hash height (2 * pos) s
          if 2 * pos + 1 < calcTreeWidth t.nTransactions height then
            let right := t.traverseAndExtract hash height (2 * pos + 1) left.2
            (left.1, right.1) ::
              (hashedPairs height (2 * pos) s ++ hashedPairs height (2 * pos + 1) left.2)
          else (left.1, left.1) :: hashedPairs height (2 * pos) s
      | _ => []

end CPartialMerkleTree

end Verium
