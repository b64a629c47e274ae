import Verium.Chain.Index
import Verium.Lib.Compact

/-!
Proof of work: the compact form of a target as `CBigNum` converts it, the retarget of
every block from the two blocks before it, the test of a hash against its target, and the
miner's reward. The code that computes in floating point is a parameter.
-/

namespace Verium

open Lib

structure Params where
  hashGenesisBlock : UInt256
  vip1Height : Nat := 520000
  nPowTargetTimespan : Nat := 2 * 24 * 60 * 60

/-- `proofOfWorkLimit`, `~arith_uint256(0) >> 11`. -/
def proofOfWorkLimit : Nat := 2 ^ 245 - 1

/-- The functions computed with `double`. They depend on the compact target of a block, or
on a number of seconds, only. -/
structure FloatCode where
  calculateBlocktime : (nBits : UInt32) → Nat
  /-- `0.25 * exp(0.0116 * nBlockTime) * COIN`, truncated. -/
  earlyReward : (nBlockTime : Nat) → CAmount
  /-- `0.04 * exp(0.0116 * nBlockTime) * COIN`, truncated. -/
  lateReward : (nBlockTime : Nat) → CAmount

/-- `CBigNum::SetCompact`: the top byte is the length of the number, the other three its
most significant bytes, of which the top bit is the sign. -/
def setCompact (nCompact : UInt32) : Int :=
  let nSize := nCompact.toNat / 2 ^ 24
  let magnitude := ofTopBytes nSize (nCompact.toNat % 2 ^ 23)
  if 1 ≤ nSize ∧ nCompact.toNat.testBit 23 then -magnitude else magnitude

/-- `CBigNum::GetCompact`: the length that `BN_bn2mpi` reports, and the three most
significant bytes. -/
def getCompact (bn : Int) : UInt32 :=
  let nSize := signedByteLength bn.natAbs
  let word := topBytes nSize bn.natAbs
  let sign : Nat := if bn < 0 then 2 ^ 23 else 0
  UInt32.ofNat (nSize * 2 ^ 24 + sign + word)

/-- `CBigNum::getuint256`: the low 32 bytes of the magnitude. -/
def getUInt256 (bn : Int) : UInt256 :=
  BitVec.ofNat 256 bn.natAbs

section Retarget

variable (params : Params) (float : FloatCode)

/-- The retarget window: two hours for the first 2394 blocks, then the normal one. -/
def targetTimespan (nHeight : Nat) : Nat :=
  if nHeight + 1 ≤ 2394 then 2 * 60 * 60 else params.nPowTargetTimespan

/-- The new target before it is clamped and rounded; `BN_div` truncates towards zero. -/
def retarget (nHeight : Nat) (pindexPrev pindexPrevPrev : CBlockIndex) : Int :=
  let nTargetSpacing : Int := float.calculateBlocktime pindexPrev.nBits
  let nActualSpacing := pindexPrev.getBlockTime - pindexPrevPrev.getBlockTime
  let nInterval := (targetTimespan params nHeight : Int) / nTargetSpacing
  (setCompact pindexPrev.nBits *
      ((nInterval - 1) * nTargetSpacing + nActualSpacing + nActualSpacing)).tdiv
    ((nInterval + 1) * nTargetSpacing)

/-- `GetNextTargetRequired(pindexLast)`, on the chain that ends in `pindexLast`. Up to
height 2, and so whenever there are fewer than four blocks, it is the limit. -/
def getNextTargetRequired (chain : List CBlockIndex) : UInt32 :=
  match chain with
  | pindexLast :: pindexPrev :: pindexPrevPrev :: _ =>
      if pindexLast.nHeight ≤ 2 then getCompact proofOfWorkLimit
      else
        let bnNew := retarget params float pindexLast.nHeight pindexPrev pindexPrevPrev
        getCompact (if (proofOfWorkLimit : Int) < bnNew then proofOfWorkLimit else bnNew)
  | _ => getCompact proofOfWorkLimit

end Retarget

def targetInRange (nBits : UInt32) : Bool :=
  0 < setCompact nBits && setCompact nBits ≤ proofOfWorkLimit

def checkProofOfWork (hash : UInt256) (nBits : UInt32) : Bool :=
  targetInRange nBits && hash ≤ getUInt256 (setCompact nBits)

/-- `arith_uint256::SetCompact`: the number in 256 bits, and the flags for a number that is
negative or does not fit. -/
def arithSetCompact (nCompact : UInt32) : Nat × Bool × Bool :=
  let nSize := nCompact.toNat / 2 ^ 24
  let word := nCompact.toNat % 2 ^ 23
  let nWord := if nSize ≤ 3 then word / 2 ^ (8 * (3 - nSize)) else word
  let number := if nSize ≤ 3 then nWord else nWord * 2 ^ (8 * (nSize - 3)) % 2 ^ 256
  let fNegative := nWord ≠ 0 && nCompact.toNat.testBit 23
  let fOverflow := nWord ≠ 0 &&
    (34 < nSize || (0xff < nWord && 33 < nSize) || (0xffff < nWord && 32 < nSize))
  (number, fNegative, fOverflow)

/-- `GetBlockProof(block)`: how many hashes the target of a block stands for. -/
def getBlockProof (nBits : UInt32) : Nat :=
  let (bnTarget, fNegative, fOverflow) := arithSetCompact nBits
  if fNegative || fOverflow || bnTarget = 0 then 0
  else (2 ^ 256 - 1 - bnTarget) / (bnTarget + 1) + 1

section Reward

variable (float : FloatCode)

def calculateMinerReward (pindex : CBlockIndex) : CAmount :=
  let nBlockTime := float.calculateBlocktime pindex.nBits
  if pindex.nHeight + 1 = 1 then 564705 * oneCoin
  else if 2899999 < pindex.nMoneySupply / oneCoin then float.lateReward nBlockTime
  else float.earlyReward nBlockTime

def getProofOfWorkReward (nFees : CAmount) (pindex : CBlockIndex) : CAmount :=
  calculateMinerReward float pindex + nFees

end Reward

/-- What the floating point code gives for the easiest target, `0x1f1fffff`. -/
def easyFloat : FloatCode where
  calculateBlocktime _ := 369
  earlyReward _ := 1806733549
  lateReward _ := 289077367

/-- `scryptHash` on a header, given whether its scratch buffer was obtained: without the
memory the output stays zero. -/
def scryptHash (crypto : Crypto) (scratchbuf : Bool) (input : Bytes) : UInt256 :=
  if scratchbuf then crypto.scrypt input else 0

def CBlockHeader.getWorkHash (crypto : Crypto) (scratchbuf : Bool)
    (header : CBlockHeader) : UInt256 :=
  scryptHash crypto scratchbuf header.serialize

end Verium
