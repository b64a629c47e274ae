import Mathlib.Data.List.Sort
import Verium.Primitives.Block

/-!
Entries of the block index. An entry and its chain of `pprev` pointers is given, where a
function only walks towards genesis, by the list of entries from the tip down.
-/

namespace Verium

open Lib

/-- The validity levels of `BlockStatus`. -/
def blockValidUnknown : Nat := 0
def blockValidTree : Nat := 2
def blockValidTransactions : Nat := 3
def blockValidScripts : Nat := 5

/-- `nStatus`, with each of its bits a field: the level under `BLOCK_VALID_MASK`, then
`BLOCK_HAVE_DATA`, `BLOCK_HAVE_UNDO`, `BLOCK_FAILED_VALID` and `BLOCK_FAILED_CHILD`. -/
structure BlockStatus where
  level : Nat
  haveData : Bool
  haveUndo : Bool
  failedValid : Bool
  failedChild : Bool
deriving DecidableEq, Repr

namespace BlockStatus

def zero : BlockStatus := ⟨blockValidUnknown, false, false, false, false⟩

/-- `nStatus & BLOCK_FAILED_MASK`. -/
def failed (s : BlockStatus) : Bool :=
  s.failedValid || s.failedChild

def isValid (s : BlockStatus) (nUpTo : Nat) : Bool :=
  !s.failed && nUpTo ≤ s.level

def raiseValidity (s : BlockStatus) (nUpTo : Nat) : BlockStatus :=
  if s.failed then s else if s.level < nUpTo then { s with level := nUpTo } else s

end BlockStatus

/-- A non-null `CBlockIndex*`. -/
abbrev BlockPtr := Nat

/-- `class CBlockIndex`; the file positions are left out. -/
structure CBlockIndex where
  /-- `*phashBlock`. -/
  hashBlock : UInt256
  pprev : Option BlockPtr
  pskip : Option BlockPtr
  nHeight : Nat
  nChainWork : Nat
  nTx : Nat
  nChainTx : Nat
  nStatus : BlockStatus
  nMint : CAmount
  nMoneySupply : CAmount
  nVersion : Int32
  hashMerkleRoot : UInt256
  nTime : UInt32
  nBits : UInt32
  nNonce : UInt32
  nSequenceId : Int
  nTimeMax : UInt32
deriving DecidableEq, Repr

namespace CBlockIndex

/-- `CBlockIndex(block)`, with the hash it will be filed under. -/
def ofHeader (hashBlock : UInt256) (block : CBlockHeader) : CBlockIndex where
  hashBlock := hashBlock
  pprev := none
  pskip := none
  nHeight := 0
  nChainWork := 0
  nTx := 0
  nChainTx := 0
  nStatus := BlockStatus.zero
  nMint := 0
  nMoneySupply := 0
  nVersion := block.nVersion
  hashMerkleRoot := block.hashMerkleRoot
  nTime := block.nTime
  nBits := block.nBits
  nNonce := block.nNonce
  nSequenceId := 0
  nTimeMax := 0

def getBlockTime (pindex : CBlockIndex) : Int :=
  pindex.nTime.toNat

def haveTxsDownloaded (pindex : CBlockIndex) : Bool :=
  pindex.nChainTx ≠ 0

end CBlockIndex

def nMedianTimeSpan : Nat := 11

def maxFutureBlockTime : Int := 2 * 60 * 60

/-- `GetMedianTimePast`: the middle of the last eleven block times, or of as many as there
are. The entry and its ancestors are given from the tip down. -/
def getMedianTimePast (chain : List CBlockIndex) : Int :=
  let times := ((chain.take nMedianTimeSpan).map CBlockIndex.getBlockTime).insertionSort (· ≤ ·)
  times.getD (times.length / 2) 0

/-- An entry with data at the given place of a tree. -/
def dataEntry (hashBlock : UInt256) (pprev : Option BlockPtr) (nHeight nChainWork : Nat) :
    CBlockIndex :=
  { CBlockIndex.ofHeader hashBlock .null with
    pprev := pprev
    pskip := pprev
    nHeight := nHeight
    nChainWork := nChainWork
    nTx := 1
    nChainTx := nHeight + 1
    nStatus := ⟨blockValidTransactions, true, false, false, false⟩ }

end Verium
