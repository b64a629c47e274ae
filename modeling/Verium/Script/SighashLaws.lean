import Verium.Script.SignatureHash

/-!
What a signature commits to. `SignatureHash` agrees with the reference implementation, and is
insensitive to what its hash type leaves open, for every hash type but `SIGHASH_NONE`: there
the outputs are not cleared, so the signature commits to all of them.
-/

namespace Verium

open Lib

section Copy

variable (noneOutputs : List CTxOut → List CTxOut)

/-- The inputs of the copy that is serialized. -/
def sighashVin (scriptCode : CScript) (nIn : Nat) (nHashType : Int32) (vin : List CTxIn) :
    List CTxIn :=
  let vin := blankScriptSigs (findAndDelete scriptCode [Opcode.opCodeSeparator]).1 nIn vin
  let vin :=
    if baseHashType nHashType = sighashNone ∨ baseHashType nHashType = sighashSingle then
      zeroOtherSequences nIn vin
    else vin
  if anyoneCanPay nHashType then keepOnlyInput nIn vin else vin

/-- The outputs of the copy, or `none` when there is no output to sign. -/
def sighashVout (nIn : Nat) (nHashType : Int32) (vout : List CTxOut) : Option (List CTxOut) :=
  if baseHashType nHashType = sighashNone then some (noneOutputs vout)
  else if baseHashType nHashType = sighashSingle then
    if vout.length ≤ nIn then none else some (keepSingleOutput nIn vout)
  else some vout

theorem sighashTx_eq (scriptCode : CScript) (txTo : CTransaction) (nIn : Nat) (nHashType : Int32) :
    sighashTx noneOutputs scriptCode txTo nIn nHashType =
      if txTo.vin.length ≤ nIn then none
      else (sighashVout noneOutputs nIn nHashType txTo.vout).map fun vout =>
        { txTo with vin := sighashVin scriptCode nIn nHashType txTo.vin, vout } := by
  unfold sighashTx sighashVout sighashVin
  by_cases hrange : txTo.vin.length ≤ nIn
  · rw [if_pos hrange, if_pos hrange]
  · rw [if_neg hrange, if_neg hrange]
    by_cases hnone : baseHashType nHashType = sighashNone
    · simp only [hnone, if_true, true_or, Option.map_some]
      split <;> rfl
    · by_cases hsingle : baseHashType nHashType = sighashSingle
      · have hne : sighashSingle ≠ sighashNone := by decide
        by_cases hlen : txTo.vout.length ≤ nIn
        · simp [hsingle, hne, hlen]
        · simp only [hsingle, hne, hlen, if_true, if_false, or_true, Option.map_some]
          split <;> rfl
      · simp only [hnone, hsingle, if_false, or_self, Option.map_some]
        split <;> rfl

end Copy

theorem keepOnlyInput_mapIdx (nIn : Nat) (vin : List CTxIn) (f : Nat → CTxIn → CTxIn) :
    keepOnlyInput nIn (vin.mapIdx f) = (vin[nIn]?.map (f nIn)).toList := by
  rw [keepOnlyInput, ← List.getElem?_mapIdx]
  cases hget : (vin.mapIdx f)[nIn]? with
  | none =>
    rw [List.getElem?_eq_none_iff] at hget
    rw [List.drop_eq_nil_of_le hget]
    rfl
  | some txin =>
    obtain ⟨hlt, hval⟩ := List.getElem?_eq_some_iff.mp hget
    rw [List.drop_eq_getElem_cons hlt, hval]
    rfl

theorem sighashVin_anyoneCanPay {nHashType : Int32} (hacp : anyoneCanPay nHashType = true)
    (scriptCode : CScript) (nIn : Nat) (vin : List CTxIn) :
    sighashVin scriptCode nIn nHashType vin =
      (vin[nIn]?.map fun txin =>
        { txin with
          scriptSig := (findAndDelete scriptCode [Opcode.opCodeSeparator]).1 }).toList := by
  unfold sighashVin
  simp only [hacp, if_true]
  split
  · rw [zeroOtherSequences, keepOnlyInput_mapIdx, blankScriptSigs, List.getElem?_mapIdx,
      Option.map_map]
    simp only [if_true, Function.comp_def]
  · rw [blankScriptSigs, keepOnlyInput_mapIdx]
    simp only [if_true]

theorem getElem?_keepSingleOutput {nIn : Nat} {vout : List CTxOut} (h : nIn < vout.length)
    (i : Nat) :
    (keepSingleOutput nIn vout)[i]? =
      if i < nIn then some CTxOut.null else if i = nIn then vout[nIn]? else none := by
  rw [keepSingleOutput, List.getElem?_mapIdx]
  rcases lt_trichotomy i nIn with hlt | heq | hgt
  · have hi : i < vout.length := by omega
    simp [hlt, hi, show i < nIn + 1 by omega]
  · subst heq
    simp
  · have hnot : ¬ i < nIn := by omega
    have hne : i ≠ nIn := by omega
    simp [hnot, hne, show ¬ i < nIn + 1 by omega]

theorem sighashVout_single {noneOutputs : List CTxOut → List CTxOut} {nIn : Nat}
    {nHashType : Int32} {vout vout' : List CTxOut}
    (hsingle : baseHashType nHashType = sighashSingle) (hsame : vout'[nIn]? = vout[nIn]?) :
    sighashVout noneOutputs nIn nHashType vout' = sighashVout noneOutputs nIn nHashType vout := by
  have hnone : sighashSingle ≠ sighashNone := by decide
  have hlen : vout'.length ≤ nIn ↔ vout.length ≤ nIn := by
    rw [← List.getElem?_eq_none_iff, hsame, List.getElem?_eq_none_iff]
  simp only [sighashVout, hsingle, hnone, if_true, if_false, hlen]
  by_cases hshort : vout.length ≤ nIn
  · rw [if_pos hshort, if_pos hshort]
  · rw [if_neg hshort, if_neg hshort]
    congr 1
    apply List.ext_getElem?
    intro i
    rw [getElem?_keepSingleOutput (by omega), getElem?_keepSingleOutput (by omega), hsame]

section Laws

variable {δ : Type*} (one : δ) (hash : Bytes → δ) (scriptCode : CScript) (txTo : CTransaction)
  (nIn : Nat) (nHashType : Int32)

/-- What the digest of a hash type promises: it is the one of the reference implementation,
and it does not change with what the hash type leaves open. A signature over a single output
stays at its own index. -/
structure SighashLaws : Prop where
  reference : signatureHash one hash scriptCode txTo nIn nHashType =
    signatureHashOld one hash scriptCode txTo nIn nHashType
  none : baseHashType nHashType = sighashNone → ∀ vout,
    signatureHash one hash scriptCode { txTo with vout } nIn nHashType =
      signatureHash one hash scriptCode txTo nIn nHashType
  single : baseHashType nHashType = sighashSingle → ∀ vout, vout[nIn]? = txTo.vout[nIn]? →
    signatureHash one hash scriptCode { txTo with vout } nIn nHashType =
      signatureHash one hash scriptCode txTo nIn nHashType
  anyoneCanPay : anyoneCanPay nHashType = true → ∀ vin nIn', vin[nIn']? = txTo.vin[nIn]? →
    (baseHashType nHashType = sighashSingle → nIn' = nIn) →
    signatureHash one hash scriptCode { txTo with vin } nIn' nHashType =
      signatureHash one hash scriptCode txTo nIn nHashType

variable {one hash scriptCode txTo nIn nHashType}

theorem signatureHashTx_single (hsingle : baseHashType nHashType = sighashSingle)
    {vout : List CTxOut} (hsame : vout[nIn]? = txTo.vout[nIn]?) :
    signatureHashTx scriptCode { txTo with vout } nIn nHashType =
      signatureHashTx scriptCode txTo nIn nHashType := by
  rw [signatureHashTx, sighashTx_eq, sighashTx_eq, sighashVout_single hsingle hsame]

/-- The outputs depend on the input index for a signature over a single output only. -/
theorem sighashVout_index {noneOutputs : List CTxOut → List CTxOut} {nIn' : Nat}
    (h : baseHashType nHashType = sighashSingle → nIn' = nIn) (vout : List CTxOut) :
    sighashVout noneOutputs nIn' nHashType vout = sighashVout noneOutputs nIn nHashType vout := by
  by_cases hsingle : baseHashType nHashType = sighashSingle
  · rw [h hsingle]
  · unfold sighashVout
    rw [if_neg hsingle, if_neg hsingle]

theorem signatureHashTx_anyoneCanPay (hacp : anyoneCanPay nHashType = true) {vin : List CTxIn}
    {nIn' : Nat} (hsame : vin[nIn']? = txTo.vin[nIn]?)
    (hindex : baseHashType nHashType = sighashSingle → nIn' = nIn) :
    signatureHashTx scriptCode { txTo with vin } nIn' nHashType =
      signatureHashTx scriptCode txTo nIn nHashType := by
  have hlen : vin.length ≤ nIn' ↔ txTo.vin.length ≤ nIn := by
    rw [← List.getElem?_eq_none_iff, hsame, List.getElem?_eq_none_iff]
  rw [signatureHashTx, sighashTx_eq, sighashTx_eq]
  simp only [hlen, sighashVin_anyoneCanPay hacp, hsame, sighashVout_index hindex]

theorem signatureHashTx_eq_old
    (h : baseHashType nHashType ≠ sighashNone ∨ txTo.vin.length ≤ nIn) :
    signatureHashTx scriptCode txTo nIn nHashType =
      signatureHashOldTx scriptCode txTo nIn nHashType := by
  rw [signatureHashTx, signatureHashOldTx, sighashTx_eq, sighashTx_eq]
  rcases h with hbase | hrange
  · simp only [sighashVout, hbase, if_false]
  · rw [if_pos hrange, if_pos hrange]

theorem serialize_cons_vout_ne (tx : CTransaction) (txout : CTxOut) :
    ({ tx with vout := txout :: tx.vout } : CTransaction).serialize ≠ tx.serialize := by
  intro heq
  have hlen := congrArg List.length heq
  have hmono : getSizeOfCompactSize tx.vout.length ≤ getSizeOfCompactSize (tx.vout.length + 1) :=
    getSizeOfCompactSize_mono (Nat.le_succ _)
  simp only [CTransaction.serialize, List.length_append, serVector_length, List.map_cons,
    List.sum_cons, List.length_cons, CTxOut.serialize_length] at hlen
  omega

/-- Under `SIGHASH_NONE` a signature commits to the outputs after all. -/
theorem signatureHash_none_sensitive (hinj : Function.Injective hash)
    (hnone : baseHashType nHashType = sighashNone) (hrange : nIn < txTo.vin.length) :
    signatureHash one hash scriptCode { txTo with vout := CTxOut.null :: txTo.vout } nIn
        nHashType ≠
      signatureHash one hash scriptCode txTo nIn nHashType := by
  intro heq
  have hlt : ¬ txTo.vin.length ≤ nIn := by omega
  simp only [signatureHash, signatureHashTx, sighashTx_eq, hlt, if_false, sighashVout, hnone,
    if_true, id, Option.map_some, sighashDigest] at heq
  have hbytes := List.append_cancel_right (hinj heq)
  exact serialize_cons_vout_ne
    { txTo with vin := sighashVin scriptCode nIn nHashType txTo.vin } CTxOut.null hbytes

/-- The digest keeps its promises for every hash type except `SIGHASH_NONE`, and there only
where it signs nothing at all. -/
theorem sighashLaws_iff (hinj : Function.Injective hash) :
    SighashLaws one hash scriptCode txTo nIn nHashType ↔
      baseHashType nHashType ≠ sighashNone ∨ txTo.vin.length ≤ nIn := by
  constructor
  · intro hlaws
    by_contra hbad
    rw [not_or, not_not, not_le] at hbad
    exact signatureHash_none_sensitive hinj hbad.1 hbad.2 (hlaws.none hbad.1 _)
  · intro hgood
    refine ⟨?_, ?_, ?_, ?_⟩
    · rw [signatureHash, signatureHashOld, signatureHashTx_eq_old hgood]
    · intro hnone vout
      have hrange := hgood.resolve_left (not_not.mpr hnone)
      rw [signatureHash, signatureHash, signatureHashTx, sighashTx_eq, sighashTx_eq,
        if_pos hrange, if_pos hrange]
    · intro hsingle vout hsame
      rw [signatureHash, signatureHash, signatureHashTx_single hsingle hsame]
    · intro hacp vin nIn' hsame hindex
      rw [signatureHash, signatureHash, signatureHashTx_anyoneCanPay hacp hsame hindex]

end Laws

/-- One input and one output. -/
def plainTx : CTransaction :=
  ⟨1, 100, [⟨⟨5, 0⟩, [], 0xffffffff, []⟩], [⟨1000, [Opcode.op1]⟩], 0⟩

/-- With the identity for the hash: a `SIGHASH_NONE` signature differs from the reference and
changes with the outputs. -/
theorem signatureHash_none_commits_outputs :
    signatureHash [1] id [Opcode.op1] plainTx 0 2 ≠
        signatureHashOld [1] id [Opcode.op1] plainTx 0 2 ∧
      signatureHash [1] id [Opcode.op1] { plainTx with vout := [] } 0 2 ≠
        signatureHash [1] id [Opcode.op1] plainTx 0 2 ∧
      baseHashType 2 = sighashNone := by
  decide +kernel

theorem plainTx_sighashLaws_iff :
    SighashLaws [1] id [Opcode.op1] plainTx 0 0x83 ↔
      baseHashType 0x83 ≠ sighashNone ∨ plainTx.vin.length ≤ 0 :=
  sighashLaws_iff Function.injective_id

end Verium
