import Verium.Consensus.ScriptChecks
import Verium.Consensus.SequenceLocks
import Verium.Mempool.Replacement
import Verium.Script.Trace

/-!
Lock times of loose transactions. `MemPoolAccept` tests finality and sequence locks against the
chain, and the scripts test the fields of the transaction that these two read; together an executed
`OP_CHECKLOCKTIMEVERIFY` or `OP_CHECKSEQUENCEVERIFY` says something about the chain.
-/

namespace Verium

open Lib

/-- The height an input is counted at: coins of the pool are assumed to confirm in the next
block. -/
def lockHeight (nHeight : Nat) (coin : Coin) : Nat :=
  if coin.nHeight = mempoolHeight then nHeight else coin.nHeight

/-- `CheckSequenceLocks(pool, tx, flags, lp, useExistingLockPoints)`: `view` is the view of the pool
over the coins of the tip, and `getAncestor` finds the ancestors of the tip. -/
def checkSequenceLocks (chain : List CBlockIndex) (getAncestor : Int → Option BlockPtr)
    (view : CCoinsView) (tx : CTransaction) (flags : Nat) (existing : Option LockPoints) :
    Result (Bool × LockPoints) :=
  match chain with
  | [] => .error (.assertion "tip != nullptr")
  | tip :: _ =>
      let nHeight := tip.nHeight + 1
      let index := { CBlockIndex.ofHeader 0 .null with nHeight }
      match existing with
      | some lp => .ok (evaluateSequenceLocks nHeight chain (lp.height, lp.time), lp)
      | none =>
          match tx.vin.mapM fun txin =>
            (view.getCoin txin.prevout).map fun coin => (lockHeight nHeight coin : Int) with
          -- "Missing input"
          | none => .ok (false, ⟨0, 0, none⟩)
          | some prevheights => do
              let (lockPair, prevheights) ←
                calculateSequenceLocks tx flags prevheights (index :: chain)
              let maxInputHeight :=
                (prevheights.filter fun height => height ≠ (nHeight : Int)).foldl max 0
              return (evaluateSequenceLocks nHeight chain lockPair,
                ⟨lockPair.1, lockPair.2, getAncestor maxInputHeight⟩)

section PolicyScriptChecks

variable (crypto : Crypto) (nonce : Bytes) (cache : List UInt256)

/-- `PolicyScriptChecks`: a failure that is due to a missing witness only is reported as such. -/
def policyScriptChecks (tx : CTransaction) (view : CCoinsViewCache) : Result Unit :=
  let passes (flags : UInt32) : Bool :=
    (checkInputs crypto nonce tx view flags false false cache).toOption.isSome
  match checkInputs crypto nonce tx view standardScriptVerifyFlags false false cache with
  | .ok _ => .ok ()
  | .error (.invalid reason chRejectCode strRejectReason) =>
      if ¬ tx.hasWitness ∧
          passes (standardScriptVerifyFlags &&&
            ~~~(scriptVerifyWitness ||| scriptVerifyCleanStack)) ∧
          ¬ passes (standardScriptVerifyFlags &&& ~~~scriptVerifyCleanStack) then
        .error (.invalid .txWitnessMutated chRejectCode strRejectReason)
      else .error (.invalid reason chRejectCode strRejectReason)
  | .error failure => .error failure

end PolicyScriptChecks

/-- The active chain from the tip down, and what else the lock times and the scripts are judged
with. -/
structure TipView where
  chain : List CBlockIndex
  nAdjustedTime : Int
  getAncestor : Int → Option BlockPtr
  scriptExecutionCacheNonce : Bytes
  scriptExecutionCache : List UInt256
  consensusScriptChecks : CTxMemPool → CTransaction → CCoinsViewCache → Result Unit

/-- `MemPoolAccept` with `CheckFinalTx`, `CheckSequenceLocks` and `PolicyScriptChecks`. A failed
assertion accepts nothing. -/
def AcceptContext.onTip (ctx : AcceptContext) (crypto : Crypto) (tip : TipView) : AcceptContext :=
  { ctx with
    tipHeight := tip.chain.head?.map CBlockIndex.nHeight
    checkFinalTx := fun tx =>
      Verium.checkFinalTx tip.chain tip.nAdjustedTime tx standardLocktimeVerifyFlags
    checkSequenceLocks := fun pool tx =>
      ((Verium.checkSequenceLocks tip.chain tip.getAncestor (viewMemPool ctx pool) tx
        standardLocktimeVerifyFlags none).toOption).getD (false, ⟨0, 0, none⟩)
    scriptChecks := fun pool tx view => do
      policyScriptChecks crypto tip.scriptExecutionCacheNonce tip.scriptExecutionCache tx view
      tip.consensusScriptChecks pool tx view }

/-- Validating an input with the flags of the pool runs its scripts, and gets to the operation with
`vch` on top of the stack. Nothing is run for a transaction in the script execution cache. -/
def InputExecutes (crypto : Crypto) (tip : TipView) (tx : CTransaction) (nIn : Nat) (txin : CTxIn)
    (coin : Coin) (opcode : UInt8) (vch : Bytes) : Prop :=
  scriptCacheEntry crypto tip.scriptExecutionCacheNonce tx standardScriptVerifyFlags ∉
      tip.scriptExecutionCache ∧
    ∃ stack script sigversion,
      RunsScript crypto standardScriptVerifyFlags (transactionSignatureChecker crypto tx nIn)
        txin.scriptSig coin.out.scriptPubKey txin.scriptWitness stack script sigversion ∧
      Executes crypto standardScriptVerifyFlags (transactionSignatureChecker crypto tx nIn)
        sigversion stack script opcode vch

/-- The blocks below height `h`, from the tip down to genesis. -/
def ChainBelow (h : Nat) (chain : List CBlockIndex) : Prop :=
  chain.map CBlockIndex.nHeight = (List.range h).reverse

/-- The operand of a lock time is in the past of the block at height `h`. -/
def LockTimeReached (h : Nat) (chain : List CBlockIndex) (nLockTime : Int) : Prop :=
  (nLockTime < locktimeThreshold → nLockTime < h) ∧
    (locktimeThreshold ≤ nLockTime → nLockTime < getMedianTimePast chain)

/-- A coin of height `nCoinHeight` has the age that the operand of a relative lock time asks for at
the block at height `h`. -/
def SequenceReached (h : Nat) (chain : List CBlockIndex) (nCoinHeight nSequence : Nat) : Prop :=
  (nSequence &&& sequenceLocktimeTypeFlag = 0 ∧
    nCoinHeight + (nSequence &&& sequenceLocktimeMask) ≤ h) ∨
  (nSequence &&& sequenceLocktimeTypeFlag ≠ 0 ∧
    ∃ pindex rest, pindex :: rest <:+ chain ∧ pindex.nHeight = nCoinHeight - 1 ∧
      getMedianTimePast (pindex :: rest) + 512 * (nSequence &&& sequenceLocktimeMask : Nat) ≤
        getMedianTimePast chain)

/-- The type flag and the lock of a sequence number are added up by the mask of `CheckSequence`. -/
theorem and_lockTimeMask (n : Nat) : n &&& (sequenceLocktimeTypeFlag ||| sequenceLocktimeMask) =
    (n &&& sequenceLocktimeTypeFlag) + (n &&& sequenceLocktimeMask) := by
  have hmask : n &&& sequenceLocktimeMask < 2 ^ 22 :=
    lt_of_le_of_lt Nat.and_le_right (by decide)
  rw [Nat.and_or_distrib_left, show sequenceLocktimeTypeFlag = 2 ^ 22 from rfl, Nat.and_two_pow,
    Nat.mul_comm, Nat.two_pow_add_eq_or_of_lt hmask]

theorem and_typeFlag (n : Nat) : n &&& sequenceLocktimeTypeFlag = 0 ∨
    n &&& sequenceLocktimeTypeFlag = sequenceLocktimeTypeFlag := by
  rw [show sequenceLocktimeTypeFlag = 2 ^ 22 from rfl, Nat.and_two_pow]
  cases n.testBit 22 with
  | false => exact .inl (Nat.zero_mul _)
  | true => exact .inr (Nat.one_mul _)

theorem and_mask_lt (n : Nat) : n &&& sequenceLocktimeMask < sequenceLocktimeTypeFlag :=
  lt_of_le_of_lt Nat.and_le_right (by decide)

theorem testBit_of_and_disableFlag {n : Nat} (h : n &&& sequenceLocktimeDisableFlag = 0) :
    n.testBit 31 = false := by
  rw [show sequenceLocktimeDisableFlag = 2 ^ 31 from rfl, Nat.and_two_pow] at h
  cases hbit : n.testBit 31 with
  | false => rfl
  | true =>
    rw [hbit] at h
    cases h

section Fields

variable {tx : CTransaction} {nIn : Nat} {txin : CTxIn}

theorem txCheckSequence_true {nSequence : Int} (hin : tx.vin[nIn]? = some txin)
    (h : txCheckSequence tx nIn nSequence = true) :
    2 ≤ tx.nVersion.toUInt32 ∧ txin.nSequence.toNat &&& sequenceLocktimeDisableFlag = 0 ∧
      txin.nSequence.toNat &&& sequenceLocktimeTypeFlag =
        nSequence.toNat &&& sequenceLocktimeTypeFlag ∧
      nSequence.toNat &&& sequenceLocktimeMask ≤ txin.nSequence.toNat &&& sequenceLocktimeMask := by
  simp only [txCheckSequence, hin, Option.map_some, Option.getD_some, and_lockTimeMask,
    Bool.and_eq_true, Bool.or_eq_true, decide_eq_true_eq] at h
  obtain ⟨⟨⟨hversion, hdisable⟩, htype⟩, hle⟩ := h
  have htx := and_mask_lt txin.nSequence.toNat
  have hop := and_mask_lt nSequence.toNat
  have hsame : txin.nSequence.toNat &&& sequenceLocktimeTypeFlag =
      nSequence.toNat &&& sequenceLocktimeTypeFlag := by
    have htx' := and_typeFlag txin.nSequence.toNat
    have hop' := and_typeFlag nSequence.toNat
    omega
  exact ⟨hversion, hdisable, hsame, by omega⟩

theorem txCheckLockTime_true {nLockTime : Int} (hin : tx.vin[nIn]? = some txin)
    (h : txCheckLockTime tx nIn nLockTime = true) :
    ((tx.nLockTime.toNat : Int) < locktimeThreshold ↔ nLockTime < locktimeThreshold) ∧
      nLockTime ≤ tx.nLockTime.toNat ∧ txin.nSequence ≠ CTxIn.sequenceFinal := by
  simp only [txCheckLockTime, hin, Option.map_some, ne_eq, Option.some.injEq, Bool.and_eq_true,
    Bool.or_eq_true, decide_eq_true_eq] at h
  obtain ⟨⟨hkind, hle⟩, hfinal⟩ := h
  exact ⟨by omega, hle, hfinal⟩

/-- What an operand of `OP_CHECKLOCKTIMEVERIFY` says, if the transaction is final. -/
theorem LockTimeReached.of_final {h : Nat} {chain : List CBlockIndex}
    {nAdjustedTime nLockTime : Int}
    (hpos : 0 < h) (hheight : chain.head?.map CBlockIndex.nHeight = some (h - 1))
    (hfinal : checkFinalTx chain nAdjustedTime tx standardLocktimeVerifyFlags = true)
    (hin : tx.vin[nIn]? = some txin) (hcheck : txCheckLockTime tx nIn nLockTime = true) :
    LockTimeReached h chain nLockTime := by
  obtain ⟨hkind, hle, hseq⟩ := txCheckLockTime_true hin hcheck
  have hnotAll : ¬ (tx.vin.all fun txin => txin.nSequence = CTxIn.sequenceFinal) = true := by
    intro hall
    have hmem := List.all_eq_true.mp hall txin (List.mem_of_getElem? hin)
    exact hseq (of_decide_eq_true hmem)
  obtain ⟨tip, htip, htipHeight⟩ := Option.map_eq_some_iff.mp hheight
  have hfinal : isFinalTx tx h (getMedianTimePast chain) = true := by
    have hblock : ((h - 1 : Nat) : Int) + 1 = h := by omega
    simpa [checkFinalTx, htip, htipHeight, standardLocktimeVerifyFlags, locktimeMedianTimePast,
      locktimeVerifySequence, hblock] using hfinal
  simp only [isFinalTx, Bool.or_eq_true, decide_eq_true_eq] at hfinal
  rcases hfinal with (hzero | hlt) | hall
  · -- the lock time is zero, so the operand is a height that every block has passed
    rw [hzero] at hle hkind
    have hthreshold : locktimeThreshold = 500000000 := rfl
    refine ⟨fun _ => ?_, fun htime => ?_⟩
    · have : nLockTime ≤ 0 := hle
      omega
    · have : nLockTime ≤ 0 := hle
      omega
  · refine ⟨fun hkind' => ?_, fun hkind' => ?_⟩
    · rw [if_pos (by omega)] at hlt
      omega
    · rw [if_neg (by omega)] at hlt
      omega
  · exact absurd hall hnotAll

end Fields

section Ancestors

variable {h : Nat} {chain : List CBlockIndex}

theorem ChainBelow.length_eq (hchain : ChainBelow h chain) : chain.length = h := by
  have hlength := congrArg List.length hchain
  simpa using hlength

theorem ChainBelow.head?_eq (hchain : ChainBelow h chain) (hne : chain ≠ []) :
    0 < h ∧ chain.head?.map CBlockIndex.nHeight = some (h - 1) := by
  have hlength := hchain.length_eq
  have hpos := List.length_pos_iff.mpr hne
  refine ⟨by omega, ?_⟩
  rw [← List.head?_map, hchain, List.head?_reverse, List.getLast?_range, if_neg (by omega)]

theorem ChainBelow.nHeight_eq (hchain : ChainBelow h chain) {i : Nat} {pindex : CBlockIndex}
    (hget : chain[i]? = some pindex) : pindex.nHeight + i + 1 = h := by
  have hlength := hchain.length_eq
  obtain ⟨hlt, rfl⟩ := List.getElem?_eq_some_iff.mp hget
  have hheight : (chain.map CBlockIndex.nHeight)[i]? = ((List.range h).reverse)[i]? := by
    rw [hchain]
  rw [List.getElem?_map, List.getElem?_eq_getElem hlt, Option.map_some,
    List.getElem?_reverse (by rw [List.length_range]; omega), List.length_range,
    List.getElem?_range (by omega), Option.some.injEq] at hheight
  omega

theorem ancestorChain_suffix {index : CBlockIndex} {height : Nat} {before : List CBlockIndex}
    (hchain : ChainBelow h chain) (hindex : index.nHeight = h) (hlt : height < h)
    (hbefore : ancestorChain (index :: chain) height = some before) :
    ∃ pindex rest, before = pindex :: rest ∧ before <:+ chain ∧ pindex.nHeight = height := by
  obtain ⟨n, hn⟩ : ∃ n, index.nHeight - height = n + 1 := ⟨h - height - 1, by omega⟩
  rw [ancestorChain, if_neg (by omega), hn, List.drop_succ_cons] at hbefore
  cases hdrop : chain.drop n with
  | nil =>
    rw [hdrop] at hbefore
    cases hbefore
  | cons pindex rest =>
    rw [hdrop] at hbefore
    cases hbefore
    have hget : chain[n]? = some pindex := by
      rw [← List.head?_drop, hdrop]
      rfl
    have hheight := hchain.nHeight_eq hget
    refine ⟨pindex, rest, rfl, ?_, by omega⟩
    rw [← hdrop]
    exact List.drop_suffix n chain

/-- What an operand of `OP_CHECKSEQUENCEVERIFY` says, if the sequence locks of the input hold. -/
theorem SequenceReached.of_covers {tx : CTransaction} {nIn : Nat} {txin : CTxIn}
    {index : CBlockIndex} {locks : Int × Int} {nCoinHeight : Nat} {nSequence : Int}
    (hchain : ChainBelow h chain) (hindex : index.nHeight = h) (hpos : 0 < h)
    (hcoin : nCoinHeight ≤ h) (hlocks : evaluateSequenceLocks h chain locks = true)
    (hcovers : LockCovers (index :: chain) locks (txin, (nCoinHeight : Int)))
    (hin : tx.vin[nIn]? = some txin) (hcheck : txCheckSequence tx nIn nSequence = true) :
    SequenceReached h chain nCoinHeight nSequence.toNat := by
  obtain ⟨-, henabled, htype, hle⟩ := txCheckSequence_true hin hcheck
  obtain ⟨hheight, htime⟩ := hcovers henabled
  simp only [evaluateSequenceLocks, decide_eq_true_eq, not_or, not_le] at hlocks
  dsimp only at hheight htime
  rw [SequenceReached, ← htype]
  by_cases hkind : txin.nSequence.toNat &&& sequenceLocktimeTypeFlag = 0
  · have hlock := hheight hkind
    exact .inl ⟨hkind, by omega⟩
  · obtain ⟨before, hbefore, hlock⟩ := htime hkind
    obtain ⟨pindex, rest, rfl, hsuffix, hpindex⟩ :=
      ancestorChain_suffix hchain hindex (by omega) hbefore
    rw [Nat.shiftLeft_eq, sequenceLocktimeGranularity] at hlock
    exact .inr ⟨hkind, pindex, rest, hsuffix, by omega, by omega⟩

end Ancestors

section Accepted

variable {tx : CTransaction}

theorem checkSequenceLocks_covers {h : Nat} {chain : List CBlockIndex} {view : CCoinsView}
    {getAncestor : Int → Option BlockPtr} {lp : LockPoints} (hchain : ChainBelow h chain)
    (hversion : 2 ≤ tx.nVersion.toUInt32)
    (hlocked : checkSequenceLocks chain getAncestor view tx standardLocktimeVerifyFlags none =
      .ok (true, lp)) :
    ∃ index locks, index.nHeight = h ∧ evaluateSequenceLocks h chain locks = true ∧
      ∀ txin ∈ tx.vin, ∀ coin, view.getCoin txin.prevout = some coin →
        LockCovers (index :: chain) locks (txin, (lockHeight h coin : Int)) := by
  cases chain with
  | nil => cases hlocked
  | cons tip rest =>
    have htip : tip.nHeight + 1 = h := hchain.nHeight_eq (i := 0) rfl
    simp only [checkSequenceLocks, htip] at hlocked
    split at hlocked
    · cases hlocked
    · next prevheights hheights =>
      obtain ⟨⟨locks, heights⟩, hcalc, hlocked⟩ := bind_eq_ok.mp hlocked
      injection hlocked with hlocked
      injection hlocked with hlocks _
      refine ⟨{ CBlockIndex.ofHeader 0 .null with nHeight := h }, locks, rfl, hlocks, ?_⟩
      intro txin hmem coin hcoin
      obtain ⟨height, hheight, hzip⟩ := mem_zip_of_mapM hheights hmem
      rw [hcoin] at hheight
      cases hheight
      exact calculateSequenceLocks_covers hversion (by decide) hcalc _ hzip

theorem policyScriptChecks_ok {crypto : Crypto} {nonce : Bytes} {cache : List UInt256}
    {view : CCoinsViewCache} (hpass : policyScriptChecks crypto nonce cache tx view = .ok ()) :
    ∃ result, checkInputs crypto nonce tx view standardScriptVerifyFlags false false cache =
      .ok result := by
  simp only [policyScriptChecks] at hpass
  split at hpass
  · next result hresult => exact ⟨result, hresult⟩
  · split at hpass
    · cases hpass
    · cases hpass
  · cases hpass

end Accepted

section Operations

variable {env : PoolEnv} {ctx : AcceptContext} {args : ATMPArgs} {pool pool' : CTxMemPool}
  {tx : CTransaction} {tip : TipView} {ws : Workspace}

theorem lockHeight_le {h : Nat}
    (hcoins : ∀ outpoint coin, ctx.coinsTip.getCoin outpoint = some coin → coin.nHeight < h)
    {outpoint : COutPoint} {coin : Coin}
    (hcoin : (viewMemPool ctx pool).getCoin outpoint = some coin) : lockHeight h coin ≤ h := by
  rw [lockHeight]
  split
  · exact le_rfl
  · next hconfirmed =>
    simp only [viewMemPool] at hcoin
    split at hcoin
    · obtain ⟨out, -, rfl⟩ := Option.map_eq_some_iff.mp hcoin
      exact absurd rfl hconfirmed
    · exact (hcoins _ _ hcoin).le

section OnTip

variable
  (haccept : acceptSingleTransaction env (ctx.onTip env.crypto tip) args pool tx = .ok (ws, pool'))

include haccept

theorem acceptSingleTransaction_scripts
    (hrun : scriptCacheEntry env.crypto tip.scriptExecutionCacheNonce tx standardScriptVerifyFlags ∉
      tip.scriptExecutionCache) {nIn : Nat} {txin : CTxIn} (hin : tx.vin[nIn]? = some txin)
    {coin : Coin} (hcoin : (viewMemPool ctx pool).getCoin txin.prevout = some coin) :
    scriptCheck env.crypto coin.out tx nIn txin standardScriptVerifyFlags = .ok () := by
  obtain ⟨⟨ws', view⟩, hpre, haccept⟩ := bind_eq_ok.mp haccept
  obtain ⟨⟨⟩, hscripts, -⟩ := bind_eq_ok.mp haccept
  obtain ⟨checked, hpassed, rfl, -⟩ := preChecks_ok hpre
  obtain ⟨⟨⟩, hpolicy, -⟩ := bind_eq_ok.mp (mapError_eq_ok.mp hscripts)
  obtain ⟨⟨view', cache'⟩, hchecked⟩ := policyScriptChecks_ok hpolicy
  rcases (checkInputs_ok hpassed.spend hchecked).2 with hcached | hall
  · exact absurd hcached hrun
  · obtain ⟨coin', hcoin', hcheck⟩ := hall (txin, nIn) (List.mk_mem_zipIdx_iff_getElem?.mpr hin)
    obtain rfl : coin = coin' := Option.some.inj (hcoin.symm.trans (hpassed.fetched hcoin'))
    exact runScriptCheck_ok hcheck

theorem acceptSingleTransaction_locks :
    checkFinalTx tip.chain tip.nAdjustedTime tx standardLocktimeVerifyFlags = true ∧
      (∃ lp, checkSequenceLocks tip.chain tip.getAncestor (viewMemPool ctx pool) tx
        standardLocktimeVerifyFlags none = .ok (true, lp)) ∧
      ∀ txin ∈ tx.vin, ∃ coin, (viewMemPool ctx pool).getCoin txin.prevout = some coin := by
  obtain ⟨⟨view, hpre⟩, -⟩ := acceptSingleTransaction_preChecks haccept
  obtain ⟨checked, hpassed, rfl, -⟩ := preChecks_ok hpre
  refine ⟨hpassed.final, ?_, fun txin hmem => ?_⟩
  · have hlocked := hpassed.locked
    simp only [AcceptContext.onTip] at hlocked
    cases hlocks : checkSequenceLocks tip.chain tip.getAncestor (viewMemPool ctx pool) tx
        standardLocktimeVerifyFlags none with
    | error failure =>
      rw [hlocks] at hlocked
      cases hlocked
    | ok result =>
      rw [hlocks] at hlocked
      obtain ⟨locked, lp⟩ := result
      obtain rfl : locked = true := hlocked
      exact ⟨lp, rfl⟩
  · obtain ⟨coin, hcoin⟩ := Option.isSome_iff_exists.mp (hpassed.available txin hmem)
    exact ⟨coin, hpassed.fetched hcoin⟩

theorem InputExecutes.evalScript_ok {nIn : Nat} {txin : CTxIn} {coin : Coin} {opcode : UInt8}
    {vch : Bytes} (hin : tx.vin[nIn]? = some txin)
    (hcoin : (viewMemPool ctx pool).getCoin txin.prevout = some coin)
    (hexec : InputExecutes env.crypto tip tx nIn txin coin opcode vch) :
    ∃ stack script sigversion result,
      Executes env.crypto standardScriptVerifyFlags (transactionSignatureChecker env.crypto tx nIn)
        sigversion stack script opcode vch ∧
      evalScript env.crypto stack script standardScriptVerifyFlags
        (transactionSignatureChecker env.crypto tx nIn) sigversion = .ok result := by
  obtain ⟨hrun, stack, script, sigversion, hscript, hexec⟩ := hexec
  obtain ⟨result, heval⟩ :=
    hscript.evalScript_ok (acceptSingleTransaction_scripts haccept hrun hin hcoin)
  exact ⟨stack, script, sigversion, result, hexec, heval⟩

end OnTip

/-- Lock-time operations mean what they say. For a transaction accepted on a tip at height `h - 1`,
an executed `OP_CHECKLOCKTIMEVERIFY` has an operand below `h`, or below the median time of the tip;
an executed `OP_CHECKSEQUENCEVERIFY` that is not disabled has an operand that the age of the coin,
in blocks or in units of 512 seconds of median time, has reached. A coin of the pool has height
`h`. -/
theorem lockTimeOperations_reached {h : Nat} (hchain : ChainBelow h tip.chain)
    (hcoins : ∀ outpoint coin, ctx.coinsTip.getCoin outpoint = some coin → coin.nHeight < h)
    (haccept : acceptSingleTransaction env (ctx.onTip env.crypto tip) args pool tx =
      .ok (ws, pool'))
    {nIn : Nat} {txin : CTxIn} (hin : tx.vin[nIn]? = some txin) :
    ∃ coin, (viewMemPool ctx pool).getCoin txin.prevout = some coin ∧
      (∀ vch, InputExecutes env.crypto tip tx nIn txin coin Opcode.opCheckLockTimeVerify vch →
        LockTimeReached h tip.chain (scriptNumSetVch vch)) ∧
      (∀ vch, InputExecutes env.crypto tip tx nIn txin coin Opcode.opCheckSequenceVerify vch →
        (scriptNumSetVch vch).toNat &&& sequenceLocktimeDisableFlag = 0 →
        SequenceReached h tip.chain (lockHeight h coin) (scriptNumSetVch vch).toNat) := by
  obtain ⟨hfinal, ⟨lp, hlocked⟩, havail⟩ := acceptSingleTransaction_locks haccept
  have hmem := List.mem_of_getElem? hin
  obtain ⟨coin, hcoin⟩ := havail txin hmem
  have hne : tip.chain ≠ [] := by
    intro hnil
    rw [hnil] at hlocked
    cases hlocked
  obtain ⟨hpos, hhead⟩ := hchain.head?_eq hne
  refine ⟨coin, hcoin, fun vch hexec => ?_, fun vch hexec henabled => ?_⟩
  · obtain ⟨stack, script, sigversion, result, hexec, heval⟩ :=
      hexec.evalScript_ok haccept hin hcoin
    obtain ⟨-, hcheck⟩ := hexec.checkLockTime rfl heval
    simp only [transactionSignatureChecker] at hcheck
    exact .of_final hpos hhead hfinal hin hcheck
  · obtain ⟨stack, script, sigversion, result, hexec, heval⟩ :=
      hexec.evalScript_ok haccept hin hcoin
    have hcheck : txCheckSequence tx nIn (scriptNumSetVch vch) = true :=
      hexec.checkSequence rfl (testBit_of_and_disableFlag henabled) heval
    obtain ⟨index, locks, hindex, hlocks, hcovers⟩ := checkSequenceLocks_covers hchain
      (txCheckSequence_true hin hcheck).1 hlocked
    exact .of_covers hchain hindex hpos (lockHeight_le hcoins hcoin) hlocks
      (hcovers txin hmem coin hcoin) hin hcheck

/-- `OP_1 OP_CHECKSEQUENCEVERIFY OP_CHECKLOCKTIMEVERIFY`: the operand of both is 1. -/
def lockedScript : CScript :=
  [Opcode.op1, Opcode.opCheckSequenceVerify, Opcode.opCheckLockTimeVerify]

/-- A node with one coin of height 1. -/
def lockedAccept : AcceptContext :=
  { sampleAccept with
    coinsTip :=
      ⟨fun o => if o = ⟨1, 0⟩ then some ⟨⟨1000000000, lockedScript⟩, false, 1⟩ else none, 7⟩ }

def lockedTip : TipView where
  chain := backdatedChain
  nAdjustedTime := 0
  getAncestor _ := none
  scriptExecutionCacheNonce := []
  scriptExecutionCache := []
  consensusScriptChecks _ _ _ := .ok ()

def lockedTxIn : CTxIn :=
  { prevout := ⟨1, 0⟩, scriptSig := [], nSequence := 1 }

/-- Spends the coin at a fee that is high enough for the first blocks. -/
def lockedSpend : CTransaction :=
  ⟨2, 0, [lockedTxIn], [⟨900000000, List.replicate 40 Opcode.op1⟩], 1⟩

theorem lockedSpend_executes (pre post : List ScriptRead) {opcode : UInt8} {pc : CScript}
    (hops : scriptOps lockedScript = pre ++ .op opcode [] pc :: post)
    (hrun : (pre.foldlM (evalStep sampleCrypto (evalFlags standardScriptVerifyFlags)
        (transactionSignatureChecker sampleCrypto lockedSpend 0) .base)
      { stack := [], altstack := [], vfExec := [], pbegincodehash := lockedScript,
        nOpCount := 0 }).toOption.map (fun s => (s.vfExec.all id, s.stack.head?)) =
        some (true, some [1])) :
    InputExecutes sampleCrypto lockedTip lockedSpend 0 lockedTxIn
      ⟨⟨1000000000, lockedScript⟩, false, 1⟩ opcode [1] := by
  refine ⟨List.not_mem_nil, [], lockedScript, .base, .scriptPubKey (by decide +kernel), ?_⟩
  obtain ⟨s, hs, hstate⟩ := Option.map_eq_some_iff.mp hrun
  rw [Prod.mk.injEq] at hstate
  exact ⟨pre, [], pc, post, s, hops, toOption_eq_some.mp hs, hstate⟩

theorem lockedSpend_reached :
    (∃ r, acceptSingleTransaction samplePoolEnv (lockedAccept.onTip sampleCrypto lockedTip)
      sampleATMPArgs .empty lockedSpend = .ok r) ∧
    LockTimeReached 5 backdatedChain 1 ∧ SequenceReached 5 backdatedChain 1 1 := by
  have hok : (acceptSingleTransaction samplePoolEnv (lockedAccept.onTip sampleCrypto lockedTip)
      sampleATMPArgs .empty lockedSpend).toOption.isSome = true := by
    decide +kernel
  obtain ⟨r, hr⟩ := Option.isSome_iff_exists.mp hok
  have hpass := toOption_eq_some.mp hr
  have hcoins : ∀ outpoint coin, lockedAccept.coinsTip.getCoin outpoint = some coin →
      coin.nHeight < 5 := by
    intro outpoint coin hcoin
    simp only [lockedAccept] at hcoin
    split at hcoin
    · cases hcoin
      decide
    · cases hcoin
  have hchain : ChainBelow 5 lockedTip.chain := rfl
  have hin : lockedSpend.vin[0]? = some lockedTxIn := rfl
  obtain ⟨coin, hcoin, hlock, hsequence⟩ := lockTimeOperations_reached hchain hcoins hpass hin
  obtain rfl : ⟨⟨1000000000, lockedScript⟩, false, 1⟩ = coin := Option.some.inj hcoin
  refine ⟨⟨r, hpass⟩, hlock [1] ?_, hsequence [1] ?_ rfl⟩
  · exact lockedSpend_executes [_, _] [] rfl (by decide +kernel)
  · exact lockedSpend_executes [_] [_] rfl (by decide +kernel)

end Operations

end Verium
