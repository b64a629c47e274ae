import Verium.Chain.HighHash

/-!
Two copies of a block that differ in `vchBlockSig` only. Neither the hash of the block nor its
Merkle root commits to the signature, but the serialized size that `CheckBlock` and
`ContextualCheckBlock` bound includes it.
-/

namespace Verium

open Lib

/-- A block that is marked was marked by `CheckBlock`, under the time rules that are in force. -/
def MarkedUnder (crypto : Crypto) (ctx : CheckContext) (block : CBlock) : Prop :=
  block.fChecked = true → ∃ ctx', enforceTime ctx' = enforceTime ctx ∧
    checkBlock crypto ctx' { block with fChecked := false } true true = .ok block

/-- The blocks have the same header and the same transactions, and either may have been
checked. -/
structure SameContent (crypto : Crypto) (ctx : CheckContext) (block block' : CBlock) : Prop where
  header : block.toCBlockHeader = block'.toCBlockHeader
  vtx : block.vtx = block'.vtx
  marked : MarkedUnder crypto ctx block
  marked' : MarkedUnder crypto ctx block'

/-- The block, with its signature, is longer than a block may be. -/
def CBlock.Oversized (block : CBlock) : Prop :=
  maxBlockWeight < block.serialize.length * witnessScaleFactor

instance (block : CBlock) : Decidable block.Oversized :=
  inferInstanceAs (Decidable (maxBlockWeight < block.serialize.length * witnessScaleFactor))

section SizeChecks

variable {crypto : Crypto} {ctx : CheckContext} {block block' : CBlock} {nHeight : Nat}

/-- The checks on the transactions of an oversized block fail at the first of them. -/
theorem checkBlockTransactions_oversized (h : block.Oversized) :
    checkBlockTransactions ctx block = .error (consensusInvalid "bad-blk-length") := by
  have hreject : rejectIf (block.vtx = [] ∨
      maxBlockWeight < block.vtx.length * witnessScaleFactor ∨
      maxBlockWeight < block.serialize.length * witnessScaleFactor)
      (consensusInvalid "bad-blk-length") = .error (consensusInvalid "bad-blk-length") :=
    if_pos (.inr (.inr h))
  unfold checkBlockTransactions
  rw [hreject]
  rfl

theorem MarkedUnder.checked (h : MarkedUnder crypto ctx block) (hmarked : block.fChecked = true) :
    checkBlockMerkleRoot crypto block = .ok () ∧ checkBlockTransactions ctx block = .ok () := by
  obtain ⟨ctx', htime, hpass⟩ := h hmarked
  simp only [checkBlock, checkWhen, Bool.false_eq_true, if_false, if_true, bind_eq_ok] at hpass
  obtain ⟨⟨⟩, -, ⟨⟩, hmerkle, ⟨⟩, htxs, -⟩ := hpass
  refine ⟨hmerkle, ?_⟩
  unfold checkBlockTransactions at htxs ⊢
  rw [htime] at htxs
  exact htxs

theorem not_oversized_of_checked (h : checkBlockTransactions ctx block = .ok ()) :
    ¬ block.Oversized := by
  intro hsize
  rw [checkBlockTransactions_oversized hsize] at h
  cases h

theorem checkBlockTransactions_congr (h : SameContent crypto ctx block block')
    (hsize : ¬ block.Oversized) (hsize' : ¬ block'.Oversized) :
    checkBlockTransactions ctx block = checkBlockTransactions ctx block' := by
  obtain ⟨header, vtx, sig, _⟩ := block
  obtain ⟨_, _, sig', _⟩ := block'
  obtain ⟨rfl, rfl, -, -⟩ := h
  unfold CBlock.Oversized at hsize hsize'
  unfold checkBlockTransactions
  simp only [hsize, hsize', or_false]

theorem contextualCheckBlock_congr (h : SameContent crypto ctx block block')
    (hsize : ¬ block.Oversized) (hsize' : ¬ block'.Oversized) :
    contextualCheckBlock { block with fChecked := true } nHeight =
      contextualCheckBlock { block' with fChecked := true } nHeight := by
  obtain ⟨header, vtx, sig, fChecked⟩ := block
  obtain ⟨_, _, sig', fChecked'⟩ := block'
  obtain ⟨rfl, rfl, -, -⟩ := h
  have hweight : ∀ sig fChecked, ¬ CBlock.Oversized ⟨header, vtx, sig, fChecked⟩ →
      ¬ maxBlockWeight < getBlockWeight ⟨header, vtx, sig, true⟩ := by
    intro sig fChecked hsize
    unfold CBlock.Oversized witnessScaleFactor at hsize
    unfold getBlockWeight witnessScaleFactor
    rw [Nat.mul_one] at hsize
    rw [Nat.sub_self, Nat.mul_zero, Nat.zero_add]
    exact hsize
  unfold contextualCheckBlock
  simp only [hweight sig fChecked hsize, hweight sig' fChecked' hsize']

theorem oversized_of_signature (h : maxBlockWeight ≤ block.vchBlockSig.length) :
    block.Oversized := by
  unfold CBlock.Oversized CBlock.serialize witnessScaleFactor
  rw [List.length_append, List.length_append, serBytes_length, CBlockHeader.serialize_length]
  omega

end SizeChecks

section WholeBlock

variable {node : NodeParams} {input : AcceptInput} {block block' : CBlock} {pindex : BlockPtr}
  {s : NodeState}

/-- The height at which `ContextualCheckBlock` is called. -/
def NodeState.blockHeight (s : NodeState) (pindex : BlockPtr) : Nat :=
  ((s.entry pindex).pprev.map fun p => (s.entry p).nHeight + 1).getD 0

/-- The checks of `AcceptBlock` on a block that has not been checked before, in their order. -/
theorem checkWholeBlock_eq (hunchecked : block.fChecked = false) :
    checkWholeBlock node input block pindex s = (do
      checkBlockWork node.crypto (s.checkContext node input.scratchbuf) block
      checkBlockMerkleRoot node.crypto block
      checkBlockTransactions (s.checkContext node input.scratchbuf) block
      contextualCheckBlock { block with fChecked := true } (s.blockHeight pindex)) := by
  unfold checkWholeBlock checkBlock
  rw [hunchecked]
  simp [checkWhen, NodeState.blockHeight]

theorem checkWholeBlock_marked (hmarked : block.fChecked = true) :
    checkWholeBlock node input block pindex s =
      contextualCheckBlock { block with fChecked := true } (s.blockHeight pindex) := by
  obtain ⟨header, vtx, sig, fChecked⟩ := block
  cases hmarked
  rfl

/-- Whether it is marked or not, a block that passes has passed all checks but that of the work. -/
theorem checkWholeBlock_ok
    (hmark : MarkedUnder node.crypto (s.checkContext node input.scratchbuf) block)
    (h : checkWholeBlock node input block pindex s = .ok ()) :
    checkBlockMerkleRoot node.crypto block = .ok () ∧
      checkBlockTransactions (s.checkContext node input.scratchbuf) block = .ok () ∧
      contextualCheckBlock { block with fChecked := true } (s.blockHeight pindex) = .ok () := by
  cases hchecked : block.fChecked with
  | true =>
    rw [checkWholeBlock_marked hchecked] at h
    obtain ⟨hmerkle, htxs⟩ := hmark.checked hchecked
    exact ⟨hmerkle, htxs, h⟩
  | false =>
    rw [checkWholeBlock_eq hchecked] at h
    simp only [bind_eq_ok] at h
    obtain ⟨⟨⟩, -, ⟨⟩, hmerkle, ⟨⟩, htxs, hcontext⟩ := h
    exact ⟨hmerkle, htxs, hcontext⟩

theorem SameContent.work_eq {crypto : Crypto} {ctx ctx' : CheckContext}
    (h : SameContent crypto ctx block block') :
    checkBlockWork crypto ctx' block = checkBlockWork crypto ctx' block' := by
  unfold checkBlockWork CBlock.getBlockHeader
  rw [h.header]

theorem SameContent.merkleRoot_eq {crypto : Crypto} {ctx : CheckContext}
    (h : SameContent crypto ctx block block') :
    checkBlockMerkleRoot crypto block = checkBlockMerkleRoot crypto block' := by
  unfold checkBlockMerkleRoot
  rw [h.header, h.vtx]

/-- The outcome of a copy of a good block, unless it is oversized and the work is tested with
success: it passes too, or its work is not enough. -/
theorem checkWholeBlock_copy
    (h : SameContent node.crypto (s.checkContext node input.scratchbuf) block block')
    (hgood : checkWholeBlock node input block' pindex s = .ok ()) (hsize : ¬ block.Oversized ∨
      checkBlockWork node.crypto (s.checkContext node input.scratchbuf) block ≠ .ok ()) :
    checkWholeBlock node input block pindex s = .ok () ∨
      checkWholeBlock node input block pindex s = .error (blockMutated "high-hash") := by
  obtain ⟨hmerkle, htxs, hcontext⟩ := checkWholeBlock_ok h.marked' hgood
  have hsize' := not_oversized_of_checked htxs
  cases hchecked : block.fChecked with
  | true =>
    left
    have hfits := not_oversized_of_checked (h.marked.checked hchecked).2
    rw [checkWholeBlock_marked hchecked, contextualCheckBlock_congr h hfits hsize']
    exact hcontext
  | false =>
    rw [checkWholeBlock_eq hchecked]
    by_cases hwork : checkBlockWork node.crypto (s.checkContext node input.scratchbuf) block =
        .ok ()
    · left
      have hfits := hsize.resolve_right (not_not.mpr hwork)
      rw [hwork, h.merkleRoot_eq, hmerkle, checkBlockTransactions_congr h hfits hsize', htxs,
        contextualCheckBlock_congr h hfits hsize', hcontext]
      rfl
    · right
      have hfails : checkBlockWork node.crypto (s.checkContext node input.scratchbuf) block =
          .error (blockMutated "high-hash") := by
        rw [checkBlockWork, rejectIf_eq_ok, not_not] at hwork
        rw [checkBlockWork, rejectIf, if_pos hwork]
      rw [hfails]
      rfl

/-- An oversized copy of a block that would pass now is rejected by consensus rules. -/
theorem checkWholeBlock_oversized
    (h : SameContent node.crypto (s.checkContext node input.scratchbuf) block block')
    (hsize : block.Oversized)
    (hgood : checkWholeBlock node input { block' with fChecked := false } pindex s = .ok ()) :
    checkWholeBlock node input block pindex s =
      .error (consensusInvalid "bad-blk-length") := by
  have hunchecked : block.fChecked = false := by
    by_contra hchecked
    rw [Bool.not_eq_false] at hchecked
    exact not_oversized_of_checked (h.marked.checked hchecked).2 hsize
  rw [checkWholeBlock_eq rfl] at hgood
  simp only [bind_eq_ok] at hgood
  obtain ⟨⟨⟩, hwork, ⟨⟩, hmerkle, -⟩ := hgood
  rw [checkWholeBlock_eq hunchecked, h.work_eq, h.merkleRoot_eq]
  change checkBlockWork node.crypto (s.checkContext node input.scratchbuf) block' = .ok () at hwork
  change checkBlockMerkleRoot node.crypto block' = .ok () at hmerkle
  rw [hwork, hmerkle, checkBlockTransactions_oversized hsize]
  rfl

/-- A block that would pass now passes, also if it is marked. -/
theorem checkWholeBlock_of_unmarked
    (hgood : checkWholeBlock node input { block with fChecked := false } pindex s = .ok ()) :
    checkWholeBlock node input block pindex s = .ok () := by
  cases hchecked : block.fChecked with
  | true =>
    rw [checkWholeBlock_eq rfl] at hgood
    simp only [bind_eq_ok] at hgood
    obtain ⟨⟨⟩, -, ⟨⟩, -, ⟨⟩, -, hcontext⟩ := hgood
    rw [checkWholeBlock_marked hchecked]
    exact hcontext
  | false =>
    obtain ⟨header, vtx, sig, fChecked⟩ := block
    cases hchecked
    exact hgood

end WholeBlock

section AcceptBlock

variable {node : NodeParams} {input : AcceptInput} {block block' : CBlock}
  {pindex pNew : BlockPtr} {s s' : NodeState}

theorem acceptBlock_eq (hheader : acceptBlockHeader node block.getBlockHeader
    input.nAdjustedTime pNew s = (.ok pindex, s')) :
    acceptBlock node input block pNew s = acceptBlockData node input block pindex s' := by
  rw [acceptBlock, hheader]

/-- The data of a block is accepted exactly if it is ignored, or passes all checks and finds a
place on disk. -/
theorem acceptBlockData_isOk_iff :
    (∃ new, (acceptBlockData node input block pindex s).1 = .ok new) ↔
    ignoresBlock node input.fRequested pindex s = true ∨
      checkWholeBlock node input block pindex s = .ok () ∧ input.saved = true := by
  unfold acceptBlockData
  split
  next hignored => simp [hignored]
  next hlook =>
    rw [Bool.not_eq_true] at hlook
    split
    next e hcheck =>
      rw [hlook, hcheck]
      split
      · split <;> simp
      · simp
    next hcheck =>
      rw [hlook, hcheck]
      split
      next hsaved => simp [hsaved]
      next hsaved => simp [hsaved]

theorem acceptBlockData_invalid {reason : String}
    (hlook : ignoresBlock node input.fRequested pindex s = false)
    (hcheck : checkWholeBlock node input block pindex s = .error (consensusInvalid reason)) :
    ((acceptBlockData node input block pindex s).2.entry pindex).nStatus.failedValid = true := by
  unfold acceptBlockData
  rw [hlook, hcheck]
  change (Function.update s.entry pindex _ pindex).nStatus.failedValid = true
  rw [Function.update_self]

/-- Accepted data and data that may be corrupted leave the flag of the entry alone, and no data
takes it away. -/
theorem acceptBlockData_failedValid
    (h : (∃ new, (acceptBlockData node input block pindex s).1 = .ok new) ∨
      (s.entry pindex).nStatus.failedValid = true ∨
      ∃ reason, checkWholeBlock node input block pindex s = .error (blockMutated reason)) :
    ((acceptBlockData node input block pindex s).2.entry pindex).nStatus.failedValid =
      (s.entry pindex).nStatus.failedValid := by
  have houtcome := acceptBlockData_outcome node input block pindex s
  generalize acceptBlockData node input block pindex s = after at houtcome h ⊢
  cases houtcome with
  | unchanged r => rfl
  | condemned hlook hcheck hreason =>
    obtain ⟨new, hnew⟩ | hflag | ⟨reason, hmutated⟩ := h
    · cases hnew
    · change (Function.update s.entry pindex _ pindex).nStatus.failedValid = _
      rw [Function.update_self, hflag]
    · rw [hcheck] at hmutated
      cases hmutated
      exact absurd rfl hreason
  | stored hlook hcheck =>
    dsimp only
    rw [receivedBlockTransactions_nStatus, if_pos rfl]
    unfold BlockStatus.raiseValidity
    split
    · rfl
    · split
      · rfl
      · rfl

/-- One copy of a block condemns the entry that the other would have been stored under only if
it is oversized: the flag stays as it was exactly if the entry carried it before, the data is
ignored or cannot be stored, the other copy would fail the checks too if they were made now, or
this copy, with its signature, has a size that is allowed. -/
theorem acceptBlock_signature_iff
    (h : SameContent node.crypto (s'.checkContext node input.scratchbuf) block block')
    (hheader : acceptBlockHeader node block.getBlockHeader input.nAdjustedTime pNew s =
      (.ok pindex, s')) :
    ((∃ new, (acceptBlock node input block' pNew s).1 = .ok new) →
      ((acceptBlock node input block pNew s).2.entry pindex).nStatus.failedValid =
        (s'.entry pindex).nStatus.failedValid) ↔
    (s'.entry pindex).nStatus.failedValid = true ∨
      ignoresBlock node input.fRequested pindex s' = true ∨ input.saved = false ∨
      checkWholeBlock node input { block' with fChecked := false } pindex s' ≠ .ok () ∨
      ¬ block.Oversized := by
  have hheader' : acceptBlockHeader node block'.getBlockHeader input.nAdjustedTime pNew s =
      (.ok pindex, s') := by
    rw [CBlock.getBlockHeader, ← h.header]
    exact hheader
  rw [acceptBlock_eq hheader, acceptBlock_eq hheader', acceptBlockData_isOk_iff]
  constructor
  · intro halike
    by_contra hcondition
    simp only [not_or, Bool.not_eq_true, Bool.not_eq_false, not_not, ne_eq] at hcondition
    obtain ⟨hclean, hlook, hsaved, hgood, hsize⟩ := hcondition
    have hkept := halike (.inr ⟨checkWholeBlock_of_unmarked hgood, hsaved⟩)
    rw [acceptBlockData_invalid hlook (checkWholeBlock_oversized h hsize hgood), hclean] at hkept
    cases hkept
  · intro hcondition haccepted
    apply acceptBlockData_failedValid
    rw [acceptBlockData_isOk_iff]
    rcases haccepted with hignored | ⟨hgood, hsaved⟩
    · exact .inl (.inl hignored)
    have hcopy : ¬ block.Oversized ∨
        checkBlockWork node.crypto (s'.checkContext node input.scratchbuf) block ≠ .ok () →
        (ignoresBlock node input.fRequested pindex s' = true ∨
          checkWholeBlock node input block pindex s' = .ok () ∧ input.saved = true) ∨
        (s'.entry pindex).nStatus.failedValid = true ∨
        ∃ reason, checkWholeBlock node input block pindex s' = .error (blockMutated reason) := by
      intro hsize
      rcases checkWholeBlock_copy h hgood hsize with hpass | hwork
      · exact .inl (.inr ⟨hpass, hsaved⟩)
      · exact .inr (.inr ⟨_, hwork⟩)
    rcases hcondition with hflag | hignored | hunsaved | hbad | hsize
    · exact .inr (.inl hflag)
    · exact .inl (.inl hignored)
    · rw [hunsaved] at hsaved
      cases hsaved
    · -- only the work can fail now in a block that has passed
      refine hcopy (.inr fun hwork => hbad ?_)
      obtain ⟨hmerkle, htxs, hcontext⟩ := checkWholeBlock_ok h.marked' hgood
      rw [h.work_eq] at hwork
      rw [checkWholeBlock_eq rfl]
      change (checkBlockWork node.crypto (s'.checkContext node input.scratchbuf) block' >>=
        fun _ => checkBlockMerkleRoot node.crypto block' >>= fun _ =>
          checkBlockTransactions (s'.checkContext node input.scratchbuf) block' >>= fun _ =>
            contextualCheckBlock { block' with fChecked := true } (s'.blockHeight pindex)) = _
      rw [hwork, hmerkle, htxs, hcontext]
      rfl
    · exact hcopy (.inl hsize)

end AcceptBlock

/-- The sample block with a signature of a million bytes. -/
def signedBlock : CBlock :=
  { sampleBlock [sampleCoinbase] with vchBlockSig := List.replicate 1000000 0 }

theorem signedBlock_sameContent (ctx : CheckContext) :
    SameContent sampleCrypto ctx signedBlock (sampleBlock [sampleCoinbase]) :=
  ⟨rfl, rfl, fun hmarked => Bool.noConfusion hmarked, fun hmarked => Bool.noConfusion hmarked⟩

theorem signedBlock_oversized : signedBlock.Oversized := by
  apply oversized_of_signature
  unfold signedBlock
  rw [List.length_replicate]
  decide

/-- The state after the header of the sample block. -/
def sampleHeaderState : NodeState :=
  (acceptBlockHeader sampleNode signedBlock.getBlockHeader sampleInput.nAdjustedTime 1
    genesisState).2

theorem signedBlock_header : acceptBlockHeader sampleNode signedBlock.getBlockHeader
    sampleInput.nAdjustedTime 1 genesisState = (.ok 1, sampleHeaderState) := by
  have hresult : (acceptBlockHeader sampleNode (sampleBlock [sampleCoinbase]).getBlockHeader
      sampleInput.nAdjustedTime 1 genesisState).1.toOption = some 1 := by
    decide +kernel
  exact Prod.fst_eq_iff.mp (toOption_eq_some.mp hresult)

/-- The sample block would be stored, but its copy with the long signature marks the entry. -/
theorem signedBlock_condemns :
    (acceptBlock sampleNode sampleInput (sampleBlock [sampleCoinbase]) 1 genesisState).1 =
        .ok true ∧
      ((acceptBlock sampleNode sampleInput signedBlock 1 genesisState).2.entry
        1).nStatus.failedValid = true := by
  refine ⟨toOption_eq_some.mp (by decide +kernel), ?_⟩
  have hgood : (checkWholeBlock sampleNode sampleInput (sampleBlock [sampleCoinbase]) 1
      sampleHeaderState).toOption = some () := by
    decide +kernel
  have hlook : ignoresBlock sampleNode sampleInput.fRequested 1 sampleHeaderState = false := by
    decide +kernel
  rw [acceptBlock_eq signedBlock_header]
  exact acceptBlockData_invalid hlook
    (checkWholeBlock_oversized (signedBlock_sameContent _) signedBlock_oversized
      (toOption_eq_some.mp hgood))

theorem signedBlock_signature_iff :
    ((∃ new, (acceptBlock sampleNode sampleInput (sampleBlock [sampleCoinbase]) 1
        genesisState).1 = .ok new) →
      ((acceptBlock sampleNode sampleInput signedBlock 1 genesisState).2.entry
        1).nStatus.failedValid = (sampleHeaderState.entry 1).nStatus.failedValid) ↔
    (sampleHeaderState.entry 1).nStatus.failedValid = true ∨
      ignoresBlock sampleNode sampleInput.fRequested 1 sampleHeaderState = true ∨
      sampleInput.saved = false ∨
      checkWholeBlock sampleNode sampleInput
        { sampleBlock [sampleCoinbase] with fChecked := false } 1 sampleHeaderState ≠ .ok () ∨
      ¬ signedBlock.Oversized :=
  acceptBlock_signature_iff (signedBlock_sameContent _) signedBlock_header

end Verium
