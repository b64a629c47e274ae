import Verium.Chain.AcceptSpec

/-!
A block whose work hash is above its target. `CheckBlock` reports it as `BLOCK_MUTATED`, the
reason for data that may be a damaged copy of a good block, so `AcceptBlock` leaves no mark on
an entry that can never become valid.
-/

namespace Verium

open Lib

section HighHash

variable (node : NodeParams)

/-- The entry is marked, and whatever arrives later, no header that descends from it is
accepted. A block is accepted only if its header is. -/
def CondemnedForGood (s : NodeState) (pindex : BlockPtr) : Prop :=
  (s.entry pindex).nStatus.failedValid = true ∧
    ∀ (later : List Arrival) (block : CBlockHeader) (nAdjustedTime : Int) (pNew p : BlockPtr),
      (acceptBlockHeader node block nAdjustedTime pNew (later.foldl (arrive node) s)).1 = .ok p →
        ¬ IsAncestor
          (acceptBlockHeader node block nAdjustedTime pNew (later.foldl (arrive node) s)).2.entry
          pindex p

variable {node} {s s' : NodeState} {block : CBlockHeader} {nAdjustedTime : Int}
  {pNew pindex : BlockPtr}

theorem linkEntry_nStatus {blockman : BlockManager} {hash : UInt256} {linked : CBlockIndex}
    (h : linkEntry blockman block (CBlockIndex.ofHeader hash block) = .ok linked) :
    linked.nStatus = ⟨blockValidTree, false, false, false, false⟩ := by
  unfold linkEntry at h
  dsimp only at h
  split at h
  · cases h
    rfl
  · rw [bind_eq_ok] at h
    obtain ⟨pskip, -, h⟩ := h
    cases h
    rfl

theorem addToBlockIndex_new (hnew : s.blockman.blockIndex (block.getHash node.crypto) = none)
    (h : addToBlockIndex node block pNew s = (.ok pindex, s')) :
    pindex = pNew ∧ (s'.entry pNew).nStatus = ⟨blockValidTree, false, false, false, false⟩ := by
  unfold addToBlockIndex at h
  dsimp only at h
  rw [hnew] at h
  dsimp only at h
  split at h
  · cases h
  next linked hlink =>
    have hstatus := linkEntry_nStatus hlink
    obtain ⟨best, heq⟩ := NodeState.raiseBestHeader_eq _ pNew
    rw [heq] at h
    cases h
    refine ⟨rfl, ?_⟩
    change (Function.update s.entry pNew linked pNew).nStatus = _
    rw [Function.update_self]
    exact hstatus

theorem acceptBlockHeader_unflagged
    (hgenesis : block.getHash node.crypto ≠ node.params.hashGenesisBlock)
    (h : acceptBlockHeader node block nAdjustedTime pNew s = (.ok pindex, s')) :
    (s'.entry pindex).nStatus.failed = false := by
  unfold acceptBlockHeader at h
  dsimp only at h
  rw [if_neg hgenesis] at h
  cases hknown : s.blockman.blockIndex (block.getHash node.crypto) with
  | some p =>
    rw [hknown] at h
    dsimp only at h
    split at h
    · cases h
    next hflag =>
      cases h
      rwa [Bool.not_eq_true] at hflag
  | none =>
    rw [hknown] at h
    dsimp only at h
    split at h
    · cases h
    · obtain ⟨rfl, hstatus⟩ := addToBlockIndex_new hknown h
      rw [hstatus]
      rfl
    · cases h

theorem acceptBlockData_mutated {input : AcceptInput} {data : CBlock} {reason : String}
    (h : (acceptBlockData node input data pindex s).1 = .error (blockMutated reason)) :
    (acceptBlockData node input data pindex s).2 = s := by
  unfold acceptBlockData at h ⊢
  split at h
  · cases h
  next hlook =>
    rw [if_neg hlook]
    split at h
    next e hcheck =>
      split at h
      next hreason =>
        rw [if_pos hreason]
        have he : e = blockMutated reason := by
          split at h
          · exact Except.error.inj h
          · exact Except.error.inj h
        rw [if_neg]
        rintro ⟨-, hne⟩
        rw [he] at hne
        exact hne rfl
      · cases h
    next hcheck =>
      split at h
      · cases h
      · cases h

/-- No header that `AcceptBlock` finds to be without work is condemned: the state is the one
that `AcceptBlockHeader` left when it accepted the header, with no flag on the entry. -/
theorem acceptBlock_highHash_not_condemned {input : AcceptInput} {data : CBlock}
    (hgenesis : data.getHash node.crypto ≠ node.params.hashGenesisBlock)
    (hheader : acceptBlockHeader node data.getBlockHeader input.nAdjustedTime pNew s =
      (.ok pindex, s'))
    (hreject : (acceptBlock node input data pNew s).1 = .error (blockMutated "high-hash")) :
    (acceptBlock node input data pNew s).2 = s' ∧
      (s'.entry pindex).nStatus.failed = false ∧
      ¬ CondemnedForGood node (acceptBlock node input data pNew s).2 pindex := by
  have hunflagged := acceptBlockHeader_unflagged hgenesis hheader
  have hstate : (acceptBlock node input data pNew s).2 = s' := by
    unfold acceptBlock at hreject ⊢
    rw [hheader] at hreject ⊢
    exact acceptBlockData_mutated hreject
  refine ⟨hstate, hunflagged, ?_⟩
  rw [hstate]
  rintro ⟨hmarked, -⟩
  rw [BlockStatus.failed, hmarked] at hunflagged
  cases hunflagged

end HighHash

/-- A node for which the work hash of every header is the largest number. -/
def hardNode : NodeParams :=
  { sampleNode with crypto := { sampleCrypto with scrypt := fun _ => BitVec.allOnes 256 } }

def sampleInput : AcceptInput where
  nAdjustedTime := 200
  scratchbuf := true
  fRequested := true
  saved := true

/-- A header on top of the sample block. -/
def childHeader : CBlockHeader where
  nVersion := 7
  hashPrevBlock := (sampleBlock [sampleCoinbase]).getHash sampleCrypto
  hashMerkleRoot := 0
  nTime := 101
  nBits := 0x1f1fffff
  nNonce := 0

/-- The sample block has no work and is rejected for it, but its entry is not marked, and a
header on top of it is accepted. -/
theorem highHash_child_accepted :
    (acceptBlock hardNode sampleInput (sampleBlock [sampleCoinbase]) 1 genesisState).1 =
        .error (blockMutated "high-hash") ∧
      (acceptBlock hardNode sampleInput (sampleBlock [sampleCoinbase]) 1
        genesisState).2.blockman.blockIndex
          ((sampleBlock [sampleCoinbase]).getHash hardNode.crypto) = some 1 ∧
      ((acceptBlock hardNode sampleInput (sampleBlock [sampleCoinbase]) 1
        genesisState).2.entry 1).nStatus.failedValid = false ∧
      (∃ p, (acceptBlockHeader hardNode childHeader 200 2
        (acceptBlock hardNode sampleInput (sampleBlock [sampleCoinbase]) 1 genesisState).2).1 =
          .ok p) ∧
      ((acceptBlockHeader hardNode childHeader 200 2
        (acceptBlock hardNode sampleInput (sampleBlock [sampleCoinbase]) 1
          genesisState).2).2.entry 2).pprev = some 1 :=
  ⟨failure?_eq_some.mp (by decide +kernel), by decide +kernel, by decide +kernel,
    failure?_eq_none.mp (by decide +kernel), by decide +kernel⟩

theorem sampleBlock_highHash_not_condemned :
    ∃ s', (acceptBlock hardNode sampleInput (sampleBlock [sampleCoinbase]) 1 genesisState).2 = s' ∧
      (s'.entry 1).nStatus.failed = false ∧
      ¬ CondemnedForGood hardNode
        (acceptBlock hardNode sampleInput (sampleBlock [sampleCoinbase]) 1 genesisState).2 1 := by
  have hne : (sampleBlock [sampleCoinbase]).getHash hardNode.crypto ≠
      hardNode.params.hashGenesisBlock := by
    decide +kernel
  have hheader := toOption_eq_some.mp
    (show (acceptBlockHeader hardNode (sampleBlock [sampleCoinbase]).getBlockHeader
      sampleInput.nAdjustedTime 1 genesisState).1.toOption = some 1 by decide +kernel)
  have hreject := failure?_eq_some.mp
    (show failure? (acceptBlock hardNode sampleInput (sampleBlock [sampleCoinbase]) 1
      genesisState).1 = some (blockMutated "high-hash") by decide +kernel)
  exact ⟨_, acceptBlock_highHash_not_condemned hne (Prod.fst_eq_iff.mp hheader) hreject⟩

end Verium
