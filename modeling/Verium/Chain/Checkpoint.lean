import Verium.Chain.AcceptSpec
import Verium.Lib.Iteration

/-!
What the last checkpoint forbids once its block is in the index. `ContextualCheckBlockHeader`
compares heights only: no entry is added below the checkpoint any more, but a branch that had
come up to the height of the checkpoint's parent before can still grow beside it.
-/

namespace Verium

open Lib

section Checkpoint

variable {node : NodeParams} {s s₀ : NodeState} {block : CBlockHeader} {nAdjustedTime : Int}
  {checkpoint : Nat × UInt256} {c p pprev : BlockPtr} {failedit : Option BlockPtr}

theorem getLastCheckpoint_eq (hlast : node.mapCheckpoints.getLast? = some checkpoint)
    (hc : s.blockman.blockIndex checkpoint.2 = some c) :
    getLastCheckpoint node s.blockman.blockIndex = some c := by
  obtain ⟨earlier, heq⟩ := List.getLast?_eq_some_iff.mp hlast
  rw [getLastCheckpoint, heq, List.reverse_append]
  simp [hc]

theorem checkNewHeader_reaches_checkpoint (henabled : node.fCheckpointsEnabled = true)
    (hlast : node.mapCheckpoints.getLast? = some checkpoint)
    (hc : s.blockman.blockIndex checkpoint.2 = some c)
    (h : checkNewHeader node s block nAdjustedTime = .ok (pprev, failedit)) :
    (s.entry c).nHeight ≤ (s.entry pprev).nHeight + 1 := by
  obtain ⟨-, -, hcheck, -⟩ := checkNewHeader_ok h
  unfold checkHeaderOn at hcheck
  dsimp only at hcheck
  rw [if_pos henabled, getLastCheckpoint_eq hlast hc, ancestry] at hcheck
  unfold contextualCheckBlockHeader at hcheck
  simp only [bind_eq_ok, rejectIf_eq_ok] at hcheck
  obtain ⟨-, -, -, hheight, -⟩ := hcheck
  simpa using hheight

/-- What stays as it was while headers and blocks arrive at a node that had the checkpoint
entry `c` in the state `s₀`. -/
structure LockedIn (node : NodeParams) (s₀ s : NodeState) (c : BlockPtr) : Prop where
  indexed : Indexed node s
  old : ∀ p ∈ s₀.blocks, p ∈ s.blocks ∧ (s.entry p).nHeight = (s₀.entry p).nHeight
  filed : ∀ {hash}, s₀.blockman.blockIndex hash = some c → s.blockman.blockIndex hash = some c
  /-- No entry has been added below the checkpoint. -/
  below : ∀ p ∈ s.blocks, (s.entry p).nHeight < (s.entry c).nHeight → p ∈ s₀.blocks

theorem LockedIn.of_sameHeaders {s' : NodeState} (h : LockedIn node s₀ s c)
    (hsame : SameHeaders s s') : LockedIn node s₀ s' c where
  indexed := h.indexed.of_sameHeaders hsame
  old p hp := by
    rw [hsame.blocks, hsame.nHeight]
    exact h.old p hp
  filed hc := by
    rw [hsame.blockIndex]
    exact h.filed hc
  below p := by
    rw [hsame.blocks, hsame.nHeight, hsame.nHeight]
    exact h.below p

theorem LockedIn.arrive (henabled : node.fCheckpointsEnabled = true)
    (hlast : node.mapCheckpoints.getLast? = some checkpoint)
    (hc : s₀.blockman.blockIndex checkpoint.2 = some c) {a : Arrival}
    (h : LockedIn node s₀ s c) (hfresh : FreshArrival s a) :
    LockedIn node s₀ (arrive node s a) c := by
  have hs := h.indexed
  have hc' := h.filed hc
  obtain hsame | ⟨_, pprev, e, best, hnew, hcheck, hlink, hsame⟩ := arrive_cases hs hfresh
  · exact h.of_sameHeaders hsame
  · obtain ⟨hprev, -⟩ := checkNewHeader_ok hcheck
    have hparent := hs.holds hprev
    have hnew' : s.blockman.blockIndex e.hashBlock = none := hlink.hashBlock ▸ hnew
    have hreach := checkNewHeader_reaches_checkpoint henabled hlast hc' hcheck
    have hcmem : c ∈ s.blocks := hs.listed.mpr (hs.holds hc')
    refine LockedIn.of_sameHeaders ⟨?_, ?_, ?_, ?_⟩ hsame
    · exact hs.withEntry hfresh hparent hnew hlink
    · intro p hp
      obtain ⟨hmem, hheight⟩ := h.old p hp
      rw [withEntry_entry_of_mem hfresh hmem]
      exact ⟨List.mem_cons_of_mem _ hmem, hheight⟩
    · intro hash hfiled
      exact withEntry_blockIndex hnew' (h.filed hfiled)
    · rintro p hp hlow
      rw [withEntry_entry_of_mem hfresh hcmem] at hlow
      rcases List.mem_cons.mp hp with rfl | hp
      · rw [withEntry_entry_self, hlink.nHeight] at hlow
        omega
      · rw [withEntry_entry_of_mem hfresh hp] at hlow
        exact h.below p hp hlow

/-- Once the block of the last checkpoint is in the index, every entry that is added descends
from it, or lies no lower than it on a branch whose block at the height of the checkpoint's
parent was there already. -/
theorem checkpoint_lockIn (hs : Indexed node s₀) (henabled : node.fCheckpointsEnabled = true)
    (hlast : node.mapCheckpoints.getLast? = some checkpoint)
    (hc : s₀.blockman.blockIndex checkpoint.2 = some c) (arrivals : List Arrival)
    (hfresh : Along (arrive node) FreshArrival s₀ arrivals)
    (hp : p ∈ (arrivals.foldl (arrive node) s₀).blocks) (hnew : p ∉ s₀.blocks) :
    IsAncestor (arrivals.foldl (arrive node) s₀).entry c p ∨
      (s₀.entry c).nHeight ≤ ((arrivals.foldl (arrive node) s₀).entry p).nHeight ∧
        ∃ a ∈ s₀.blocks, (s₀.entry a).nHeight + 1 = (s₀.entry c).nHeight ∧
          IsAncestor (arrivals.foldl (arrive node) s₀).entry a p := by
  have hstart : LockedIn node s₀ s₀ c :=
    ⟨hs, fun _ hp => ⟨hp, rfl⟩, fun h => h, fun _ hp _ => hp⟩
  have hend : LockedIn node s₀ (arrivals.foldl (Verium.arrive node) s₀) c :=
    hfresh.invariant (I := fun s => LockedIn node s₀ s c)
      (fun _ _ h hfresh => h.arrive henabled hlast hc hfresh) hstart
  generalize arrivals.foldl (Verium.arrive node) s₀ = s at hp hend ⊢
  have hheld := hend.indexed.listed.mp hp
  obtain ⟨hcmem, hcheight⟩ := hend.old c (hs.listed.mpr (hs.holds hc))
  have hlow : (s₀.entry c).nHeight ≤ (s.entry p).nHeight := by
    by_contra hlt
    exact hnew (hend.below p hp (by omega))
  cases hzero : (s₀.entry c).nHeight with
  | zero =>
    left
    exact hend.indexed.isAncestor_of_height_zero (hend.indexed.listed.mp hcmem) (by omega) hheld
  | succ n =>
    right
    obtain ⟨a, ha, hheight⟩ :=
      hend.indexed.tree.graded.exists_ancestor hheld (show n ≤ (s.entry p).nHeight by omega)
    have hamem := hend.indexed.listed.mpr (hend.indexed.tree.graded.ancestor_mem hheld ha)
    have hold := hend.below a hamem (by omega)
    have hsame := (hend.old a hold).2
    exact ⟨by omega, a, hold, by omega, ha⟩

end Checkpoint

/-- The sample block, at height one. -/
def sampleCheckpoint : Nat × UInt256 :=
  (1, (sampleBlock [sampleCoinbase]).getHash sampleCrypto)

/-- A node with one checkpoint. -/
def checkpointNode : NodeParams :=
  { sampleNode with
    mapCheckpoints := [sampleCheckpoint]
    sorted := List.pairwise_singleton _ _ }

/-- A header beside the checkpoint. -/
def siblingHeader : CBlockHeader :=
  { (sampleBlock [sampleCoinbase]).getBlockHeader with nNonce := 1 }

/-- The state after the header of the checkpoint. -/
def checkpointState : NodeState :=
  arrive checkpointNode genesisState (.header (sampleBlock [sampleCoinbase]).getBlockHeader 200 1)

/-- With the checkpoint in the index, a header beside it is accepted. -/
theorem siblingHeader_accepted :
    checkpointState.blockman.blockIndex sampleCheckpoint.2 = some 1 ∧
      checkpointState.blockman.blockIndex (siblingHeader.getHash sampleCrypto) = none ∧
      (acceptBlockHeader checkpointNode siblingHeader 200 2 checkpointState).1 = .ok 2 ∧
      ¬ IsAncestor (acceptBlockHeader checkpointNode siblingHeader 200 2
        checkpointState).2.entry 1 2 := by
  refine ⟨by decide +kernel, by decide +kernel, toOption_eq_some.mp (by decide +kernel), ?_⟩
  have hsibling : ((acceptBlockHeader checkpointNode siblingHeader 200 2
      checkpointState).2.entry 2).pprev = some 0 := by
    decide +kernel
  have hgenesis : ((acceptBlockHeader checkpointNode siblingHeader 200 2
      checkpointState).2.entry 0).pprev = none := by
    decide +kernel
  intro hanc
  obtain ⟨p, hp, hanc⟩ := hanc.parent_of_ne (by decide)
  rw [hsibling] at hp
  cases hp
  obtain ⟨q, hq, -⟩ := hanc.parent_of_ne (by decide)
  rw [hgenesis] at hq
  cases hq

theorem checkpointState_indexed : Indexed checkpointNode checkpointState :=
  (genesisState_atGenesis rfl).indexed.arrive
    (a := .header (sampleBlock [sampleCoinbase]).getBlockHeader 200 1) (show 1 ∉ [0] by decide)

/-- The state after the header beside the checkpoint. -/
def siblingState : NodeState :=
  [Arrival.header siblingHeader 200 2].foldl (arrive checkpointNode) checkpointState

/-- The sibling lies on genesis, which was in the index before the checkpoint. -/
theorem siblingHeader_lockIn :
    IsAncestor siblingState.entry 1 2 ∨
      (checkpointState.entry 1).nHeight ≤ (siblingState.entry 2).nHeight ∧
        ∃ a ∈ checkpointState.blocks,
          (checkpointState.entry a).nHeight + 1 = (checkpointState.entry 1).nHeight ∧
          IsAncestor siblingState.entry a 2 := by
  have hc : checkpointState.blockman.blockIndex sampleCheckpoint.2 = some 1 := by
    decide +kernel
  have hfresh : 2 ∉ checkpointState.blocks := by
    decide +kernel
  have hadded : 2 ∈ siblingState.blocks := by
    decide +kernel
  have hlast : checkpointNode.mapCheckpoints.getLast? = some sampleCheckpoint := rfl
  exact checkpoint_lockIn checkpointState_indexed rfl hlast hc
    [Arrival.header siblingHeader 200 2] ⟨hfresh, trivial⟩ hadded hfresh

/-- Whatever headers and blocks arrive, in any order, valid or not: every entry of the index is
filed under its hash and descends from the genesis block. -/
theorem arrivals_descend_genesis {s' : NodeState} (hs : Indexed node s) (arrivals : List Arrival)
    (hfresh : Along (arrive node) FreshArrival s arrivals)
    (hs' : s' = arrivals.foldl (arrive node) s) (hp : p ∈ s'.blocks) :
    s'.blockman.blockIndex (s'.entry p).hashBlock = some p ∧
      ∃ g, s'.blockman.blockIndex node.params.hashGenesisBlock = some g ∧
        IsAncestor s'.entry g p := by
  have hindexed := hfresh.invariant (fun _ _ h hf => h.arrive hf) hs
  rw [← hs'] at hindexed
  have hholds := hindexed.listed.mp hp
  obtain ⟨g, -, hanc, hzero⟩ := getAncestor_ok hindexed.tree hholds (Nat.zero_le _)
  have hg := hindexed.tree.graded.ancestor_mem hholds hanc
  exact ⟨hholds, g, hindexed.of_height_zero hg hzero, hanc⟩

theorem siblingState_descends_genesis :
    ∃ g, siblingState.blockman.blockIndex checkpointNode.params.hashGenesisBlock = some g ∧
      IsAncestor siblingState.entry g 2 := by
  let arrivals := [Arrival.header siblingHeader 200 2]
  have hfresh : 2 ∉ checkpointState.blocks := by decide +kernel
  have hadded : 2 ∈ siblingState.blocks := by decide +kernel
  have hs : siblingState = arrivals.foldl (arrive checkpointNode) checkpointState := rfl
  exact (arrivals_descend_genesis checkpointState_indexed arrivals ⟨hfresh, trivial⟩ hs hadded).2

end Verium
