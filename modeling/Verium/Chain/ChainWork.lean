import Verium.Chain.AcceptSpec
import Verium.Consensus.Retarget
import Verium.Lib.Iteration

/-!
The work of a chain. `AddToBlockIndex` adds up `GetBlockProof` in 256 bits, so `nChainWork` is
the sum over an entry and its ancestors modulo `2 ^ 256`. Headers are accepted without their
proof of work, so how large the sum can get depends on how far their timestamps take the target
down: while it stays at or above `2 ^ k`, on branches of less than `2 ^ k` blocks, the sum fits
and grows with every block.
-/

namespace Verium

open Lib

/-- On a usable target the two decoders of the compact form agree. -/
theorem arithSetCompact_eq {nBits : UInt32} (h : targetInRange nBits = true) :
    arithSetCompact nBits = ((setCompact nBits).toNat, false, false) := by
  obtain ⟨hpos, hlimit⟩ : 0 < setCompact nBits ∧ setCompact nBits ≤ proofOfWorkLimit := by
    simpa [targetInRange] using h
  have hmax : setCompact nBits < 2 ^ 245 := by
    simp only [proofOfWorkLimit] at hlimit
    omega
  unfold setCompact at hpos hmax
  unfold arithSetCompact setCompact
  generalize nBits.toNat / 2 ^ 24 = nSize at *
  have hword : nBits.toNat % 2 ^ 23 < 2 ^ 23 := Nat.mod_lt _ (by positivity)
  generalize nBits.toNat % 2 ^ 23 = word at *
  generalize nBits.toNat.testBit 23 = sign at *
  dsimp only at hpos hmax ⊢
  have hplain : ¬(1 ≤ nSize ∧ sign = true) := by
    intro hneg
    rw [if_pos hneg] at hpos
    omega
  rw [if_neg hplain] at hpos hmax ⊢
  have hsize : 1 ≤ nSize := by
    by_contra hzero
    have hnone : ofTopBytes nSize word = 0 := by
      rw [Nat.lt_one_iff.mp (not_le.mp hzero)]
      exact Nat.div_eq_of_lt (by omega)
    omega
  have hsign : sign = false := Bool.eq_false_iff.mpr fun h => hplain ⟨hsize, h⟩
  rw [Int.toNat_natCast, hsign]
  rcases le_or_gt nSize 3 with hshort | hlong
  · have hvalue : ofTopBytes nSize word = word / 2 ^ (8 * (3 - nSize)) := by
      unfold ofTopBytes
      split
      · rw [pow_256]
      · simp [show nSize = 3 by omega]
    rw [hvalue, if_pos hshort]
    simp
    omega
  · have hvalue : ofTopBytes nSize word = word * 2 ^ (8 * (nSize - 3)) := by
      rw [ofTopBytes, if_neg (by omega), pow_256]
    rw [hvalue] at hmax ⊢
    have hfits : word * 2 ^ (8 * (nSize - 3)) < 2 ^ 245 := by exact_mod_cast hmax
    -- so long a word with so many bytes below it would be out of range
    have hlog : ∀ bits, 2 ^ bits ≤ word → bits + 8 * (nSize - 3) < 245 := by
      intro bits hbits
      apply (Nat.pow_lt_pow_iff_right (by omega : 1 < 2)).mp
      rw [pow_add]
      exact (Nat.mul_le_mul_right _ hbits).trans_lt hfits
    have h0 := hlog 0
    have h8 := hlog 8
    have h16 := hlog 16
    rw [if_neg (by omega), if_neg (by omega), Nat.mod_eq_of_lt (hfits.trans (by norm_num))]
    simp
    omega

/-- A target of at least `2 ^ k` stands for some work, and for no more than one in `2 ^ k + 1`
of the numbers of 256 bits. -/
theorem getBlockProof_bounds {nBits : UInt32} {k : Nat} (h : targetInRange nBits = true)
    (hk : 2 ^ k ≤ setCompact nBits) :
    0 < getBlockProof nBits ∧ getBlockProof nBits ≤ 2 ^ 256 / (2 ^ k + 1) := by
  have hlow : 2 ^ k ≤ (setCompact nBits).toNat := by
    zify
    exact hk.trans (Int.self_le_toNat _)
  have hpos : 0 < (setCompact nBits).toNat := lt_of_lt_of_le (by positivity) hlow
  have hhigh : (setCompact nBits).toNat < 2 ^ 256 := by
    have hlimit : setCompact nBits ≤ proofOfWorkLimit := by
      simp only [targetInRange, Bool.and_eq_true, decide_eq_true_eq] at h
      exact h.2
    simp only [proofOfWorkLimit] at hlimit
    omega
  unfold getBlockProof
  rw [arithSetCompact_eq h]
  generalize (setCompact nBits).toNat = bnTarget at hlow hpos hhigh
  dsimp only
  rw [if_neg (by simp; omega)]
  refine ⟨Nat.succ_pos _, (Nat.le_div_iff_mul_le (by positivity)).mpr ?_⟩
  have hdiv := Nat.div_mul_le_self (2 ^ 256 - 1 - bnTarget) (bnTarget + 1)
  calc
    ((2 ^ 256 - 1 - bnTarget) / (bnTarget + 1) + 1) * (2 ^ k + 1)
        ≤ ((2 ^ 256 - 1 - bnTarget) / (bnTarget + 1) + 1) * (bnTarget + 1) :=
      Nat.mul_le_mul_left _ (by omega)
    _ ≤ 2 ^ 256 := by
      rw [Nat.add_mul, Nat.one_mul]
      omega

section ExactWork

/-- The sum of `GetBlockProof` over an entry and all its ancestors. -/
def exactWork (entry : BlockPtr → CBlockIndex) (p : BlockPtr) : Nat :=
  ((ancestry entry ((entry p).nHeight + 1) (some p)).map fun e => getBlockProof e.nBits).sum

variable {entry entry' : BlockPtr → CBlockIndex} {S : BlockPtr → Prop} {p q : BlockPtr}

theorem exactWork_root (hprev : (entry p).pprev = none) :
    exactWork entry p = getBlockProof (entry p).nBits := by
  have hend : ∀ fuel, ancestry entry fuel none = [] := by
    intro fuel
    cases fuel <;> rfl
  rw [exactWork, ancestry, hprev, hend]
  simp

theorem exactWork_step (ht : BlockTree entry S) (hp : S p) (hprev : (entry p).pprev = some q) :
    exactWork entry p = exactWork entry q + getBlockProof (entry p).nBits := by
  rw [exactWork, ancestry, hprev, ht.graded.succ hp hprev, List.map_cons, List.sum_cons, exactWork,
    Nat.add_comm]

/-- The sum depends on the targets and the links of the entry and its ancestors only. -/
theorem exactWork_congr (ht : BlockTree entry S) (ht' : BlockTree entry' S)
    (hprev : ∀ p, S p → (entry' p).pprev = (entry p).pprev)
    (hbits : ∀ p, S p → (entry' p).nBits = (entry p).nBits) (hp : S p) :
    exactWork entry' p = exactWork entry p := by
  induction p, hp using ht.graded.upward with
  | root p hp hparent =>
    rw [exactWork_root hparent, exactWork_root ((hprev p hp).trans hparent), hbits p hp]
  | step p q hp hparent ih =>
    rw [exactWork_step ht hp hparent, exactWork_step ht' hp ((hprev p hp).trans hparent),
      hbits p hp, ih]

/-- Where every block stands for at most `bound`, a branch adds up to at most `bound` for each
of its blocks. -/
theorem exactWork_le (ht : BlockTree entry S) {bound : Nat}
    (hbound : ∀ p, S p → getBlockProof (entry p).nBits ≤ bound) (hp : S p) :
    exactWork entry p ≤ ((entry p).nHeight + 1) * bound := by
  induction p, hp using ht.graded.upward with
  | root p hp hparent =>
    rw [exactWork_root hparent, ht.graded.root hp hparent, Nat.zero_add, Nat.one_mul]
    exact hbound p hp
  | step p q hp hparent ih =>
    have hblock := hbound p hp
    rw [exactWork_step ht hp hparent, ht.graded.succ hp hparent, Nat.succ_mul (_ + 1)]
    omega

theorem mem_ancestry (ht : BlockTree entry S) (hp : S p) {fuel : Nat} {e : CBlockIndex}
    (he : e ∈ ancestry entry fuel (some p)) : ∃ q, S q ∧ e = entry q := by
  induction fuel generalizing p with
  | zero => cases he
  | succ fuel ih =>
    rcases List.mem_cons.mp he with rfl | he
    · exact ⟨p, hp, rfl⟩
    · cases hprev : (entry p).pprev with
      | none =>
        rw [hprev] at he
        cases fuel <;> cases he
      | some q =>
        rw [hprev] at he
        exact ih (ht.graded.mem hp hprev) he

end ExactWork

section Runs

/-- The entries form a tree, and `nChainWork` is the sum of the proofs modulo `2 ^ 256`. -/
structure WorkModulo (node : NodeParams) (s : NodeState) : Prop where
  indexed : Indexed node s
  nChainWork : ∀ p ∈ s.blocks, (s.entry p).nChainWork = exactWork s.entry p % 2 ^ 256

variable {node : NodeParams} {s s' : NodeState}

theorem WorkModulo.of_sameHeaders (h : WorkModulo node s) (hsame : SameHeaders s s') :
    WorkModulo node s' where
  indexed := h.indexed.of_sameHeaders hsame
  nChainWork p hp := by
    rw [hsame.blocks] at hp
    have hexact : exactWork s'.entry p = exactWork s.entry p :=
      exactWork_congr h.indexed.tree (hsame.sameFrame.tree h.indexed.tree)
        (fun p _ => hsame.pprev p)
        (fun p _ => by rw [hsame.entry p]) (h.indexed.listed.mp hp)
    rw [hexact, ← h.nChainWork p hp, hsame.entry p]

theorem exactWork_withEntry (hs : Indexed node s) {pNew p : BlockPtr} {e : CBlockIndex}
    {best : Option BlockPtr} (hfresh : pNew ∉ s.blocks) (hp : p ∈ s.blocks) :
    exactWork (s.withEntry pNew e best).entry p = exactWork s.entry p := by
  have hnot := hs.not_holds hfresh
  apply exactWork_congr hs.tree (hs.tree.update hnot) _ _ (hs.listed.mp hp)
  · intro q hq
    rw [update_of_mem hnot hq]
  · intro q hq
    rw [update_of_mem hnot hq]

theorem WorkModulo.arrive {a : Arrival} (h : WorkModulo node s) (hfresh : FreshArrival s a) :
    WorkModulo node (arrive node s a) := by
  have hs := h.indexed
  obtain hsame | ⟨_, pprev, e, best, hnew, hcheck, hlink, hsame⟩ := arrive_cases hs hfresh
  · exact h.of_sameHeaders hsame
  · obtain ⟨hprev, -⟩ := checkNewHeader_ok hcheck
    have hparent := hs.holds hprev
    have hmem := hs.listed.mpr hparent
    have hs' : Indexed node (s.withEntry a.pNew e best) := hs.withEntry hfresh hparent hnew hlink
    refine WorkModulo.of_sameHeaders ⟨hs', ?_⟩ hsame
    intro p hp
    rcases List.mem_cons.mp hp with rfl | hp
    · have hlinked : ((s.withEntry a.pNew e best).entry a.pNew).pprev = some pprev := by
        rw [withEntry_entry_self]
        exact hlink.pprev
      rw [exactWork_step hs'.tree (hs'.listed.mp hp) hlinked, exactWork_withEntry hs hfresh hmem,
        withEntry_entry_self, hlink.nChainWork, hlink.nBits, h.nChainWork pprev hmem,
        Nat.mod_add_mod]
    · rw [withEntry_entry_of_mem hfresh hp, exactWork_withEntry hs hfresh hp]
      exact h.nChainWork p hp

/-- The work of every entry is the exact sum, and more than that of its parent. -/
def WorkExact (s : NodeState) : Prop :=
  ∀ p ∈ s.blocks, (s.entry p).nChainWork = exactWork s.entry p ∧
    ∀ q, (s.entry p).pprev = some q → (s.entry q).nChainWork < (s.entry p).nChainWork

/-- The target of an entry is usable and at least `2 ^ k`, and its height is below `2 ^ k`. -/
structure TargetAtLeast (k : Nat) (e : CBlockIndex) : Prop where
  inRange : targetInRange e.nBits = true
  atLeast : 2 ^ k ≤ setCompact e.nBits
  nHeight : e.nHeight < 2 ^ k

variable {k : Nat}

theorem mul_div_succ_lt {n : Nat} (hn : 0 < n) (m : Nat) : m * (n / (m + 1)) < n := by
  have hle := Nat.mul_div_le n (m + 1)
  rw [Nat.succ_mul] at hle
  rcases Nat.eq_zero_or_pos (n / (m + 1)) with hzero | hpos
  · rwa [hzero]
  · omega

theorem WorkModulo.exact (h : WorkModulo node s)
    (htargets : ∀ p ∈ s.blocks, TargetAtLeast k (s.entry p)) : WorkExact s := by
  have htree := h.indexed.tree
  have hproof : ∀ p ∈ s.blocks, 0 < getBlockProof (s.entry p).nBits ∧
      getBlockProof (s.entry p).nBits ≤ 2 ^ 256 / (2 ^ k + 1) := by
    intro p hp
    exact getBlockProof_bounds (htargets p hp).inRange (htargets p hp).atLeast
  have hsum : ∀ p ∈ s.blocks, (s.entry p).nChainWork = exactWork s.entry p := by
    intro p hp
    have hle := exactWork_le htree (fun q hq => (hproof q (h.indexed.listed.mpr hq)).2)
      (h.indexed.listed.mp hp)
    have hfits : exactWork s.entry p < 2 ^ 256 := by
      calc
        exactWork s.entry p ≤ ((s.entry p).nHeight + 1) * (2 ^ 256 / (2 ^ k + 1)) := hle
        _ ≤ 2 ^ k * (2 ^ 256 / (2 ^ k + 1)) := Nat.mul_le_mul_right _ (htargets p hp).nHeight
        _ < 2 ^ 256 := mul_div_succ_lt (by positivity) _
    rw [h.nChainWork p hp, Nat.mod_eq_of_lt hfits]
  intro p hp
  refine ⟨hsum p hp, fun q hprev => ?_⟩
  have hheld := h.indexed.listed.mp hp
  have hq := h.indexed.listed.mpr (htree.graded.mem hheld hprev)
  have hpos := (hproof p hp).1
  rw [hsum p hp, hsum q hq, exactWork_step htree hheld hprev]
  omega

/-- On the parent of what arrives, the timestamps leave a target of at least `2 ^ k` for a block
at a height below `2 ^ k`. -/
def KeepsTarget (node : NodeParams) (k : Nat) (s : NodeState) (a : Arrival) : Prop :=
  ∀ pprev ∈ s.blockman.blockIndex a.getBlockHeader.hashPrevBlock,
    (s.entry pprev).nHeight + 1 < 2 ^ k ∧
      RetargetAtLeast node.params node.float (2 ^ k)
        (ancestry s.entry ((s.entry pprev).nHeight + 1) (some pprev))

instance (a : Arrival) : Decidable (KeepsTarget node k s a) :=
  inferInstanceAs (Decidable (∀ pprev ∈ s.blockman.blockIndex a.getBlockHeader.hashPrevBlock, _))

variable (hblocktime : ∀ nBits, targetInRange nBits = true →
  0 < node.float.calculateBlocktime nBits)

include hblocktime in
theorem targetAtLeast_arrive (hk : k ≤ 244) {a : Arrival} (hs : Indexed node s)
    (htargets : ∀ p ∈ s.blocks, TargetAtLeast k (s.entry p)) (hfresh : FreshArrival s a)
    (hkeeps : KeepsTarget node k s a) {p : BlockPtr} (hp : p ∈ (arrive node s a).blocks) :
    TargetAtLeast k ((arrive node s a).entry p) := by
  have hsame : ∀ {s s' : NodeState}, SameHeaders s s' →
      (∀ p ∈ s.blocks, TargetAtLeast k (s.entry p)) →
      ∀ p ∈ s'.blocks, TargetAtLeast k (s'.entry p) := by
    intro s s' hsame h p hp
    rw [hsame.blocks] at hp
    rw [hsame.entry p]
    exact ⟨(h p hp).inRange, (h p hp).atLeast, (h p hp).nHeight⟩
  obtain h | ⟨_, pprev, e, best, hnew, hcheck, hlink, h⟩ := arrive_cases hs hfresh
  · exact hsame h htargets p hp
  · refine hsame h ?_ p hp
    intro p hp
    rcases List.mem_cons.mp hp with rfl | hp
    · obtain ⟨hprev, -, hheader, -⟩ := checkNewHeader_ok hcheck
      obtain ⟨hheight, hretarget⟩ := hkeeps pprev hprev
      unfold checkHeaderOn at hheader
      have hbits := contextualCheckBlockHeader_nBits hheader
      obtain ⟨hrange, hlow⟩ := hretarget.next hk (by
        intro e he
        obtain ⟨q, hq, rfl⟩ := mem_ancestry hs.tree (hs.holds hprev) he
        exact hblocktime _ (htargets q (hs.listed.mpr hq)).inRange)
      rw [← hbits, ← hlink.nBits] at hrange hlow
      rw [withEntry_entry_self]
      exact ⟨hrange, hlow, hlink.nHeight ▸ hheight⟩
    · rw [withEntry_entry_of_mem hfresh hp]
      exact htargets p hp

end Runs

section Start

/-- The index before anything is loaded. -/
def NodeState.empty : NodeState where
  blockman :=
    { entry := fun _ => CBlockIndex.ofHeader 0 .null
      blockIndex := fun _ => none
      failedBlocks := []
      blocksUnlinked := [] }
  chain := []
  setBlockIndexCandidates := []
  pindexBestInvalid := none
  coinsBestBlock := 0
  blockChecked := []
  blocks := []
  pindexBestHeader := none
  nBlockSequenceId := 1
  nBlockReverseSequenceId := -1
  nLastPreciousChainwork := 0

/-- The header is that of the genesis block, which has no parent and the easiest target. -/
structure IsGenesis (node : NodeParams) (genesis : CBlockHeader) : Prop where
  hash : genesis.getHash node.crypto = node.params.hashGenesisBlock
  orphan : genesis.hashPrevBlock ≠ node.params.hashGenesisBlock
  nBits : genesis.nBits = getCompact proofOfWorkLimit

variable {node : NodeParams} {genesis : CBlockHeader}

theorem workModulo_genesis (hgenesis : IsGenesis node genesis) (nAdjustedTime : Int)
    (p : BlockPtr) {k : Nat} (hk : k ≤ 244) :
    WorkModulo node (acceptBlockHeader node genesis nAdjustedTime p .empty).2 ∧
      ∀ q ∈ (acceptBlockHeader node genesis nAdjustedTime p .empty).2.blocks,
        TargetAtLeast k ((acceptBlockHeader node genesis nAdjustedTime p .empty).2.entry q) := by
  have hnew : NodeState.empty.blockman.blockIndex (genesis.getHash node.crypto) = none := rfl
  obtain ⟨e, best, hhash, hprev, hskip, hheight, -, hbits, hwork, hadd⟩ :=
    addToBlockIndex_root p (hgenesis.hash ▸ hgenesis.orphan) hnew rfl
  have heq : (acceptBlockHeader node genesis nAdjustedTime p .empty).2 =
      NodeState.empty.withEntry p e best := by
    unfold acceptBlockHeader
    dsimp only
    rw [if_pos hgenesis.hash, hadd]
  rw [hgenesis.hash] at hhash
  have hindexed : Indexed node (NodeState.empty.withEntry p e best) := by
    refine .of_genesis rfl (fun hash => ?_) ?_ ?_ ?_ ?_
    · rw [← hhash]
      exact Function.update_apply ..
    all_goals rw [withEntry_entry_self]; assumption
  have hself : (NodeState.empty.withEntry p e best).entry p = e := withEntry_entry_self
  have htarget : TargetAtLeast k e := by
    obtain ⟨hrange, hlow⟩ := getCompact_atLeast (two_pow_le_proofOfWorkLimit hk) le_rfl
    rw [← hgenesis.nBits, ← hbits] at hrange hlow
    exact ⟨hrange, hlow, hheight ▸ Nat.two_pow_pos k⟩
  rw [heq]
  refine ⟨⟨hindexed, fun q hq => ?_⟩, fun q hq => ?_⟩
  · obtain ⟨-, hle⟩ := getBlockProof_bounds htarget.inRange htarget.atLeast
    have hlt : 2 ^ 256 / (2 ^ k + 1) < 2 ^ 256 :=
      Nat.div_lt_self (by positivity) (Nat.lt_add_of_pos_left (by positivity))
    rw [List.mem_singleton.mp hq, exactWork_root (by rw [hself, hprev]), hself, hwork,
      Nat.mod_eq_of_lt (hle.trans_lt hlt)]
  · rw [List.mem_singleton.mp hq, hself]
    exact htarget

/-- In every index that headers and blocks build on top of genesis, where every step leaves the
target that comes from the timestamps at or above `2 ^ k` and the height below `2 ^ k`, the work
of every entry is the exact sum of the proofs and grows along every branch. -/
theorem chainWork_exact (hgenesis : IsGenesis node genesis)
    (hblocktime : ∀ nBits, targetInRange nBits = true →
      0 < node.float.calculateBlocktime nBits)
    {k : Nat} (hk : k ≤ 244) (nAdjustedTime : Int) (p : BlockPtr) (arrivals : List Arrival)
    (hsteps : Along (arrive node) (fun s a => FreshArrival s a ∧ KeepsTarget node k s a)
      (acceptBlockHeader node genesis nAdjustedTime p .empty).2 arrivals) :
    WorkExact (arrivals.foldl (arrive node)
      (acceptBlockHeader node genesis nAdjustedTime p .empty).2) := by
  obtain ⟨hmodulo, htargets⟩ := hsteps.invariant
    (I := fun s => WorkModulo node s ∧ ∀ p ∈ s.blocks, TargetAtLeast k (s.entry p))
    (fun _ _ h hstep => ⟨h.1.arrive hstep.1, fun _ =>
      targetAtLeast_arrive hblocktime hk h.1.indexed h.2 hstep.1 hstep.2⟩)
    (workModulo_genesis hgenesis nAdjustedTime p hk)
  exact hmodulo.exact htargets

end Start

/-- A header with the given parent, time and target. -/
def plainHeader (hashPrevBlock : UInt256) (nTime nBits : UInt32) : CBlockHeader :=
  { CBlockHeader.null with hashPrevBlock, nTime, nBits }

def plainGenesis : CBlockHeader :=
  plainHeader 0 0 0x1f1fffff

def plainNode : NodeParams :=
  { sampleNode with params := { hashGenesisBlock := plainGenesis.getHash sampleCrypto } }

/-- Headers one on top of the other, at the addresses that follow `p`. -/
def headerChain (hashPrevBlock : UInt256) (p : BlockPtr) : List (UInt32 × UInt32) → List Arrival
  | [] => []
  | (nTime, nBits) :: rest =>
      let block := plainHeader hashPrevBlock nTime nBits
      .header block 100000 p :: headerChain (block.getHash sampleCrypto) (p + 1) rest

/-- The second of the headers is dated a day ahead of the others, and the target that the
fifth has to name is negative. -/
def backdatedHeaders : List Arrival :=
  headerChain (plainGenesis.getHash sampleCrypto) 1
    [(1, 0x1f1fffff), (100000, 0x1f1fffff), (2, 0x1f1fffff), (3, 0x1f1fffff), (4, 545474148)]

/-- The fifth header is accepted, and has no more work than its parent. -/
theorem backdatedHeaders_no_more_work :
    let s := backdatedHeaders.foldl (arrive plainNode)
      (acceptBlockHeader plainNode plainGenesis 0 0 .empty).2
    s.blocks = [5, 4, 3, 2, 1, 0] ∧ (s.entry 5).pprev = some 4 ∧
      (s.entry 5).nChainWork = (s.entry 4).nChainWork := by
  decide +kernel

/-- Headers at the spacing aimed at, but for the third, which comes soon after the second: the
fifth has to name a smaller target. -/
def steadyHeaders : List Arrival :=
  headerChain (plainGenesis.getHash sampleCrypto) 1
    [(369, 0x1f1fffff), (738, 0x1f1fffff), (800, 0x1f1fffff), (1200, 0x1f1fffff),
      (1569, 522016368)]

theorem steadyHeaders_exact :
    let s := steadyHeaders.foldl (arrive plainNode)
      (acceptBlockHeader plainNode plainGenesis 0 0 .empty).2
    s.blocks = [5, 4, 3, 2, 1, 0] ∧ WorkExact s := by
  refine ⟨by decide +kernel, ?_⟩
  apply chainWork_exact (k := 240)
  · exact ⟨rfl, by decide +kernel, by decide +kernel⟩
  · intro _ _
    change 0 < 369
    decide
  · decide
  · refine ⟨?_, ?_, ?_, ?_, ?_, trivial⟩
    all_goals
      unfold FreshArrival
      decide +kernel

end Verium
