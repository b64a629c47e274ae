import Verium.Chain.HighHash
import Verium.Chain.LoadSpec
import Verium.Chain.Tracked
import Verium.Lib.Iteration

/-!
Headers on top of failed blocks, over whole runs of a node. A block that `AcceptBlock` condemns
is marked but not registered in `m_failed_blocks`, so a header two levels above it is accepted.
The other gaps are blocks that have once been connected, and a reset that drops the registered
ancestor of a marked block.
-/

namespace Verium

open Lib

section Operator

variable {node : NodeParams} {s s' : NodeState} {t p : BlockPtr}

/-- The chain has been cut from `t` to `t'`, and nothing else has been marked. -/
theorem Tracked.cut {c : CChainState} {t' : BlockPtr} (h : Tracked node s) (ht : ActiveAt s t)
    (hcut : CutTo s.toCChainState c t t') (hnone : t' = t) : Tracked node (s.withChain c) := by
  have hkept : ∀ q, (c.entry q).nStatus = (s.entry q).nStatus := by
    intro q
    apply hcut.kept
    rw [hnone]
    exact id
  refine h.updateChain hcut.toOnlyStatus (hnone ▸ ht.holds) hcut.chain hcut.coins ?_ ?_
  · intro q hq
    rw [hkept]
    exact ht.usable q (hnone ▸ hq)
  · intro q f hq hunflagged hf hflag
    rw [hkept] at hunflagged hflag ⊢
    rw [hcut.failedBlocks]
    exact h.noticed hq hunflagged hf hflag

/-- The chain has been cut, and the last block cut off, or one off the chain, has been marked
and registered. All entries that have been marked are above it. -/
theorem Tracked.cutAndMarked {c c' : CChainState} {t' m : BlockPtr} (h : Tracked node s)
    (ht : ActiveAt s t) (hcut : CutTo s.toCChainState c t t')
    (hlast : LastCut s.toCChainState p t t' m) (hout : ¬ IsAncestor s.entry m t')
    (hsame : SameBlocks ((s.withChain c).markInvalid m).toCChainState c')
    (hkeeps : ∀ q, OpenAbove s p q → s.chain.contains s.entry q = false →
      (s.entry q).nStatus.level < blockValidScripts) : Tracked node (s.withChain c') := by
  have htree := h.indexed.tree
  let mark : BlockStatus → BlockStatus := fun status => { status with failedValid := true }
  have hstatus : ∀ q, (c'.entry q).nStatus =
      if q = m then mark (c.entry q).nStatus else (c.entry q).nStatus := by
    intro q
    rw [hsame.entry]
    exact c.updateStatus_nStatus m q mark
  have hregister : c'.blockman.failedBlocks = m :: s.blockman.failedBlocks := by
    rw [hsame.blockman, ← hcut.failedBlocks]
    rfl
  have honly : OnlyStatus s.toCChainState c' := by
    refine hcut.toOnlyStatus.trans (OnlyStatus.trans (.updateStatus c m mark) ⟨?_, fun q => ?_⟩)
    · rw [hsame.blockman]
      rfl
    · rw [hsame.entry]
      rfl
  refine h.updateChain honly (htree.graded.ancestor_mem ht.holds hcut.below)
    (hsame.chain ▸ hcut.chain) (hsame.coins.trans hcut.coins) ?_ ?_
  · intro q hq
    have hne : q ≠ m := by
      rintro rfl
      exact hout hq
    rw [hstatus, if_neg hne, hcut.kept q fun _ => hq]
    exact ht.usable q (hq.trans hcut.below)
  · intro q f hq hunflagged hf hflag
    rw [hstatus] at hunflagged
    rw [hregister, hstatus]
    split at hunflagged
    · cases hunflagged
    next hqm =>
      rw [if_neg hqm]
      -- an entry that has been cut off is flagged
      have hon : IsAncestor s.entry q t → IsAncestor s.entry q t' := by
        intro hqt
        by_contra hnot
        rw [hcut.marked q hqt hnot] at hunflagged
        cases hunflagged
      rw [hcut.kept q hon] at hunflagged ⊢
      by_cases hm : IsAncestor s.entry m q
      · refine ⟨hkeeps q ⟨hq, hlast.isAncestor.trans hm, ?_, hunflagged⟩ ?_, m,
          List.mem_cons_self, hm⟩
        · rintro rfl
          have hle := htree.graded.height_le hq hm
          have hge := htree.graded.height_le (htree.graded.ancestor_mem hq hm) hlast.isAncestor
          exact hqm (htree.graded.eq_of_height hq hm (by omega)).symm
        · rw [Bool.eq_false_iff, ne_eq, ht.chain.contains_iff]
          exact fun hqt => hout (hm.trans (hon hqt))
      · have hfm : f ≠ m := by
          rintro rfl
          exact hm hf
        have hfon : IsAncestor s.entry f t → IsAncestor s.entry f t' := by
          intro hft
          by_contra hnot
          exact hm ((hlast.isAncestor_of_cut htree ht.holds hcut.below hft hnot).trans hf)
        rw [hstatus, if_neg hfm, hcut.kept f hfon] at hflag
        obtain ⟨hlow, g, hg, hgq⟩ := h.noticed hq hunflagged hf hflag
        exact ⟨hlow, g, List.mem_cons_of_mem m hg, hgq⟩

theorem Tracked.invalidateBlock (h : Tracked node s) {rounds : Nat}
    (hkeeps : NodeAction.KeepsRegister node s (.invalidateBlock rounds p)) :
    Tracked node (s.next node (.invalidateBlock rounds p)) := by
  obtain ⟨t, ht⟩ := h.active
  have htree := h.indexed.tree
  rw [NodeState.next]
  cases hresult : Verium.invalidateBlock rounds p s with
  | error e => exact h
  | ok r =>
    obtain ⟨r, s'⟩ := r
    change Tracked node s'
    obtain ⟨t', m, c, hcut, hlast, heq, ⟨hin, hsame⟩ | ⟨hout, hsame⟩⟩ := invalidateBlock_spec htree
      ht.holds ht.chain ht.coins (fun q hq => (ht.usable q hq).2) hresult
    · rw [hsame]
      refine h.cut ht hcut ?_
      rcases hlast with ⟨hnone, -⟩ | ⟨hprev, hm, -⟩
      · exact hnone
      · have hsucc := htree.graded.succ (htree.graded.ancestor_mem ht.holds hm) hprev
        have hle := htree.graded.height_le (htree.graded.ancestor_mem ht.holds hcut.below) hin
        omega
    · rw [heq]
      exact h.cutAndMarked ht hcut hlast hout hsame hkeeps

/-- A reset clears the ancestors and descendants of the block. A marked entry that stays is
registered still, if it was. -/
theorem Tracked.resetBlockFailureFlags (h : Tracked node s) (hp : s.blockman.Holds p)
    (hkeeps : NodeAction.KeepsRegister node s (.resetBlockFailureFlags p)) :
    Tracked node (s.next node (.resetBlockFailureFlags p)) := by
  obtain ⟨t, ht⟩ := h.active
  have htree := h.indexed.tree
  rw [NodeState.next]
  cases hresult : Verium.resetBlockFailureFlags p s with
  | error e => exact h
  | ok s' =>
    change Tracked node s'
    obtain ⟨heq, hcleared, hdone⟩ := resetBlockFailureFlags_spec htree h.indexed.listed hp hresult
    rw [heq]
    have hdata : ∀ q, (s'.entry q).nStatus.haveData = (s.entry q).nStatus.haveData := by
      intro q
      rcases hcleared.nStatus q with hq | ⟨-, hq⟩
      · rw [hq]
      · rw [hq]
        rfl
    refine h.updateChain hcleared.toOnlyStatus ht.holds (hcleared.chain ▸ ht.chain)
      (hcleared.coins.trans ht.coins) ?_ ?_
    · intro q hq
      obtain ⟨hhave, hunflagged⟩ := ht.usable q hq
      exact ⟨(hdata q).trans hhave, hcleared.unflagged hunflagged⟩
    · intro q f hq hunflagged hf hflag
      have hfheld := htree.graded.ancestor_mem hq hf
      have hunrelated : ¬ Related s.entry p f := by
        intro hrelated
        have hnot := hdone f hfheld hrelated
        rw [BlockStatus.failed_of_failedValid hflag] at hnot
        cases hnot
      have hqunrelated : ¬ Related s.entry p q := by
        rintro (hpq | hqp)
        · rcases Nat.le_total (s.entry p).nHeight (s.entry f).nHeight with hle | hle
          · exact hunrelated (.inl (htree.graded.ancestor_of_le hq hpq hf hle))
          · exact hunrelated (.inr (htree.graded.ancestor_of_le hq hf hpq hle))
        · exact hunrelated (.inr (hf.trans hqp))
      have hfstatus := (hcleared.nStatus f).resolve_right fun hchanged => hunrelated hchanged.1
      have hqstatus := (hcleared.nStatus q).resolve_right fun hchanged => hqunrelated hchanged.1
      have hfailed := BlockStatus.failed_of_failedValid hflag
      rw [hfstatus] at hflag
      rw [hqstatus] at hunflagged ⊢
      have hne : q ≠ f := by
        rintro rfl
        rw [BlockStatus.failed_of_failedValid hflag] at hunflagged
        cases hunflagged
      have hregistered := hkeeps f q hunrelated hflag ⟨hq, hf, hne, hunflagged⟩
      refine ⟨(h.noticed hq hunflagged hf hflag).1, f, ?_, hf⟩
      by_contra hdropped
      have hnot := hcleared.dropped f hregistered hdropped
      rw [hfailed] at hnot
      cases hnot

/-- Loading hands no flag on to a chain that carries none. -/
theorem Loading.unflagged {c : NodeState} (h : Loading s c)
    (ht : BlockTree s.entry s.blockman.Holds) (htip : s.blockman.Holds t)
    (hclean : ∀ q, IsAncestor s.entry q t → (s.entry q).nStatus.failed = false) {q : BlockPtr}
    (hq : IsAncestor s.entry q t) : (c.entry q).nStatus.failed = false := by
  induction hn : (s.entry q).nHeight using Nat.strong_induction_on generalizing q with
  | _ n ih =>
    rw [Bool.eq_false_iff]
    intro hflag
    rcases h.failed q hflag with hold | ⟨r, hprev, hr⟩
    · rw [hclean q hq] at hold
      cases hold
    · have hsucc := ht.graded.succ (ht.graded.ancestor_mem htip hq) hprev
      rw [ih _ (by omega) ((Ancestor.of_parent hprev).trans hq) rfl] at hr
      cases hr

/-- After a restart every entry above a marked one is flagged. -/
theorem Tracked.restart (h : Tracked node s) {childWritten : BlockPtr → Bool} :
    Tracked node (s.next node (.restart childWritten)) := by
  obtain ⟨t, ht⟩ := h.active
  have htree := h.indexed.tree
  rw [NodeState.next]
  cases hresult : Verium.restart childWritten s with
  | error e => exact h
  | ok s' =>
    change Tracked node s'
    obtain ⟨c, t', hload, hhanded, hblockman, hcoins, hblocks, htip, hchain⟩ :=
      restart_spec htree h.indexed.listed h.indexed.filed hresult
    have hsame : t' = t := by
      have hheld := ht.holds
      rw [BlockManager.Holds, show (s.blockman.entry t).hashBlock = s.coinsBestBlock from
        ht.coins.symm, htip, Option.some_inj] at hheld
      exact hheld
    subst hsame
    have hentry : s'.entry = c.entry := by
      change s'.blockman.entry = c.blockman.entry
      rw [hblockman]
    have hindexed : Indexed node s' := by
      apply h.indexed.congr _ hblocks
      · rw [hentry]
        exact hload.hashBlock
      · rw [hentry]
        exact hload.pprev
      · rw [hentry]
        exact hload.tree htree
      · rw [hblockman]
        exact hload.blockIndex
    have hholds : ∀ p, s'.blockman.Holds p ↔ s.blockman.Holds p := by
      intro p
      rw [hblockman]
      exact hload.holds_iff p
    refine ⟨hindexed, ⟨t', (hholds t').mpr ht.holds, ?_, ?_, ?_⟩, ?_⟩
    · rw [hentry]
      exact hchain
    · rw [hcoins, hentry, hload.hashBlock]
      exact ht.coins
    · intro q hq
      change IsAncestor s'.entry q t' at hq
      rw [hentry, hload.isAncestor_iff] at hq
      rw [hentry, hload.haveData]
      exact ⟨(ht.usable q hq).1,
        hload.unflagged htree ht.holds (fun r hr => (ht.usable r hr).2) hq⟩
    · intro p f hp hunflagged hf hflag
      rw [hholds] at hp
      rw [hentry] at hunflagged hf hflag
      -- the flag has been handed on from the marked entry to this one
      have hflagged : (c.entry p).nStatus.failed = true := by
        clear hunflagged
        induction hf with
        | refl => exact BlockStatus.failed_of_failedValid hflag
        | step hprev _ ih =>
          have hparent := htree.graded.mem hp ((hload.pprev _).symm.trans hprev)
          exact (hhanded _ hp).failed _ hprev (ih hparent)
      rw [hflagged] at hunflagged
      cases hunflagged

theorem Tracked.next (h : Tracked node s) {a : NodeAction} (henabled : a.Enabled s)
    (hkeeps : a.KeepsRegister node s) : Tracked node (s.next node a) := by
  cases a with
  | arrival a =>
    cases a with
    | header block nAdjustedTime pNew => exact h.acceptBlockHeader henabled
    | block input block pNew => exact h.acceptBlock henabled hkeeps
  | connectTip verdict pindexNew => exact h.connectTip henabled hkeeps
  | disconnectTip => exact h.disconnectTip
  | findMostWorkChain => exact h.findMostWorkChain
  | invalidateBlock rounds pindex => exact h.invalidateBlock hkeeps
  | resetBlockFailureFlags pindex => exact h.resetBlockFailureFlags henabled hkeeps
  | restart childWritten => exact h.restart

end Operator

section Runs

variable {node : NodeParams} {s₀ : NodeState} {g : BlockPtr}

theorem AtGenesis.tracked (h : AtGenesis node s₀ g) : Tracked node s₀ := by
  refine ⟨h.indexed, ⟨g, h.holds, ⟨?_, ?_⟩, ?_, ?_⟩, ?_⟩
  · rw [h.chain, h.nHeight]
    rfl
  · intro k p
    rw [h.chain, h.isAncestor_iff, List.getElem?_singleton]
    constructor
    · intro hp
      split at hp
      next hk =>
        cases hp
        exact ⟨rfl, h.nHeight.trans hk.symm⟩
      · cases hp
    · rintro ⟨rfl, hk⟩
      rw [if_pos (hk.symm.trans h.nHeight)]
  · rw [h.coins, h.hashBlock]
  · intro q hq
    rw [(h.isAncestor_iff q).mp hq]
    exact ⟨h.haveData, h.unflagged⟩
  · intro p f hp hunflagged hf hflag
    rw [h.eq_of_holds hp] at hf
    rw [(h.isAncestor_iff f).mp hf] at hflag
    have hnot := h.unflagged
    rw [BlockStatus.failed_of_failedValid hflag] at hnot
    cases hnot

theorem AtGenesis.tracked_run {actions : List NodeAction} (hstart : AtGenesis node s₀ g)
    (hrun : Along (NodeState.next node) (fun s a => a.Enabled s ∧ a.KeepsRegister node s) s₀
      actions) : Tracked node (actions.foldl (NodeState.next node) s₀) :=
  hrun.invariant (I := Tracked node) (fun _ _ h hgood => h.next hgood.1 hgood.2) hstart.tracked

/-- In a run from genesis all of whose steps keep the register of failed blocks, a new header is
accepted only if no ancestor of it is marked. -/
theorem acceptBlockHeader_no_failed_ancestor {actions : List NodeAction}
    (hstart : AtGenesis node s₀ g)
    (hrun : Along (NodeState.next node) (fun s a => a.Enabled s ∧ a.KeepsRegister node s) s₀
      actions)
    {s : NodeState} (hs : s = actions.foldl (NodeState.next node) s₀) {block : CBlockHeader}
    {nAdjustedTime : Int} {pNew pindex parent f : BlockPtr} (hfresh : pNew ∉ s.blocks)
    (hnew : s.blockman.blockIndex (block.getHash node.crypto) = none)
    (haccept : (acceptBlockHeader node block nAdjustedTime pNew s).1 = .ok pindex)
    (hparent : s.blockman.blockIndex block.hashPrevBlock = some parent)
    (hf : IsAncestor s.entry f parent) : (s.entry f).nStatus.failedValid = false := by
  have htracked : Tracked node s := by
    rw [hs]
    exact hstart.tracked_run hrun
  have houtcome := acceptBlockHeader_outcome block nAdjustedTime htracked.indexed hfresh
  generalize acceptBlockHeader node block nAdjustedTime pNew s = after at houtcome haccept
  cases houtcome with
  | rejected e => cases haccept
  | known hknown =>
    rw [hnew] at hknown
    cases hknown
  | marked hheld hfailed hflag hpath => cases haccept
  | added hnew hcheck hlink =>
    have hprev := (checkNewHeader_ok hcheck).1
    rw [hparent, Option.some_inj] at hprev
    exact htracked.not_failedValid hcheck (hprev ▸ hf)

end Runs

/-- A block without a coinbase. -/
def barrenBlock : CBlock :=
  sampleBlock [⟨1, 100, [⟨⟨5, 0⟩, [], 0xffffffff, []⟩], [⟨1000, [0x51]⟩], 0⟩]

/-- A header on top of the block with the given hash. -/
def headerOn (hashPrevBlock : UInt256) (nTime : UInt32) : CBlockHeader :=
  { childHeader with hashPrevBlock, nTime }

/-- A header on top of the block without a coinbase. -/
def barrenChild : CBlockHeader :=
  headerOn (barrenBlock.getHash sampleCrypto) 101

/-- The headers of the block and of its child come in, then the block itself. -/
def barrenRun : List NodeAction :=
  [.arrival (.header barrenBlock.getBlockHeader 200 1), .arrival (.header barrenChild 200 2),
    .arrival (.block sampleInput barrenBlock 3)]

/-- The block is marked, and then a header above its child is accepted. -/
theorem barrenBlock_descendant_accepted :
    ∃ s, s = barrenRun.foldl (NodeState.next sampleNode) genesisState ∧
      (s.entry 1).nStatus.failedValid = true ∧ (s.entry 2).pprev = some 1 ∧
      s.blockman.blockIndex (barrenChild.getHash sampleCrypto) = some 2 ∧
      s.blockman.blockIndex ((headerOn (barrenChild.getHash sampleCrypto) 102).getHash
        sampleCrypto) = none ∧
      (acceptBlockHeader sampleNode (headerOn (barrenChild.getHash sampleCrypto) 102) 200 3
        s).1.toOption = some 3 :=
  ⟨_, rfl, by decide +kernel, by decide +kernel, by decide +kernel, by decide +kernel,
    by decide +kernel⟩

def lowerBlock : CBlock :=
  sampleBlock [sampleCoinbase]

def upperBlock : CBlock :=
  { lowerBlock with hashPrevBlock := lowerBlock.getHash sampleCrypto, nTime := 101 }

/-- Two blocks come in and are connected, then the block without a coinbase, next to the first. -/
def branchRun : List NodeAction :=
  [.arrival (.block sampleInput lowerBlock 1), .connectTip .valid 1,
    .arrival (.block sampleInput upperBlock 2), .connectTip .valid 2,
    .arrival (.block sampleInput barrenBlock 3)]

def branchState : NodeState :=
  branchRun.foldl (NodeState.next sampleNode) genesisState

theorem NodeAction.keepsRegister_of_new {node : NodeParams} {s : NodeState} {input : AcceptInput}
    {block : CBlock} {pNew : BlockPtr}
    (h : s.blockman.blockIndex (block.getBlockHeader.getHash node.crypto) = none) :
    (NodeAction.arrival (.block input block pNew)).KeepsRegister node s := by
  intro p q hp
  rw [h] at hp
  cases hp

theorem branchRun_keepsRegister : Along (NodeState.next sampleNode)
    (fun s a => a.Enabled s ∧ a.KeepsRegister sampleNode s) genesisState branchRun := by
  refine ⟨⟨?_, NodeAction.keepsRegister_of_new (by decide +kernel)⟩, ⟨?_, trivial⟩,
    ⟨?_, NodeAction.keepsRegister_of_new (by decide +kernel)⟩, ⟨?_, trivial⟩,
    ⟨?_, NodeAction.keepsRegister_of_new (by decide +kernel)⟩, trivial⟩
  all_goals
    unfold NodeAction.Enabled
    simp only [FreshArrival, BlockManager.Holds]
    decide +kernel

theorem branchState_no_failed_ancestor :
    (branchState.entry 3).nStatus.failedValid = true ∧
      (branchState.entry 1).nStatus.failedValid = false := by
  have haccept : (acceptBlockHeader sampleNode (headerOn (upperBlock.getHash sampleCrypto) 102)
      200 4 branchState).1.toOption = some 4 := by
    decide +kernel
  have hparent : branchState.blockman.blockIndex
      (headerOn (upperBlock.getHash sampleCrypto) 102).hashPrevBlock = some 2 := by
    decide +kernel
  have hfresh : 4 ∉ branchState.blocks := by decide +kernel
  have hnew : branchState.blockman.blockIndex
      ((headerOn (upperBlock.getHash sampleCrypto) 102).getHash sampleNode.crypto) = none := by
    decide +kernel
  have hs : branchState = branchRun.foldl (NodeState.next sampleNode) genesisState := rfl
  have hfirst : (branchState.entry 2).pprev = some 1 := by decide +kernel
  refine ⟨by decide +kernel, ?_⟩
  exact acceptBlockHeader_no_failed_ancestor (genesisState_atGenesis rfl) branchRun_keepsRegister
    hs hfresh hnew (toOption_eq_some.mp haccept) hparent (.step hfirst (.refl 1))

end Verium
