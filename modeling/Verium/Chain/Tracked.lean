import Verium.Chain.OperatorSpec

/-!
How a header is kept off a block that is marked `BLOCK_FAILED_VALID`. For a new header
`AcceptBlockHeader` looks at the flags of the parent, and then for an ancestor among
`m_failed_blocks`, unless the parent has once been connected. So every entry without flags that
has a marked ancestor must have a registered one, and must never have been connected. Here it
is shown which steps of a running node keep it so.
-/

namespace Verium

open Lib

/-- A call that can change flags, `m_failed_blocks` or the active chain. `ConnectTip` is given
with what `ConnectBlock` says about the block. -/
inductive NodeAction where
  | arrival (a : Arrival)
  | connectTip (verdict : Verdict) (pindexNew : BlockPtr)
  | disconnectTip
  | findMostWorkChain
  | invalidateBlock (rounds : Nat) (pindex : BlockPtr)
  | resetBlockFailureFlags (pindex : BlockPtr)
  | restart (childWritten : BlockPtr → Bool)

section Actions

variable (node : NodeParams)

/-- The state after a call that works on the chain state. If it stops the process, no step
follows. -/
def NodeState.after (s : NodeState) : Result CChainState → NodeState
  | .ok chain => s.withChain chain
  | .error _ => s

/-- The state after a call. -/
def NodeState.next (s : NodeState) : NodeAction → NodeState
  | .arrival a => arrive node s a
  | .connectTip verdict pindexNew =>
      s.after (Prod.snd <$> s.toCChainState.connectTip (fun _ => verdict) pindexNew)
  | .disconnectTip => s.after s.toCChainState.disconnectTip
  | .findMostWorkChain => s.after (Prod.snd <$> s.toCChainState.findMostWorkChain)
  | .invalidateBlock rounds pindex =>
      match Verium.invalidateBlock rounds pindex s with
      | .ok (_, s') => s'
      | .error _ => s
  | .resetBlockFailureFlags pindex =>
      match Verium.resetBlockFailureFlags pindex s with
      | .ok s' => s'
      | .error _ => s
  | .restart childWritten =>
      match Verium.restart childWritten s with
      | .ok s' => s'
      | .error _ => s

/-- When a call is made: the address of a new entry is not in use, `ConnectTip` is called on an
entry that has its data and no flag, and the operator names entries of the index. -/
def NodeAction.Enabled (s : NodeState) : NodeAction → Prop
  | .arrival a => FreshArrival s a
  | .connectTip _ p => s.blockman.Holds p ∧ (s.entry p).nStatus.haveData = true ∧
      (s.entry p).nStatus.failed = false
  | .invalidateBlock _ p => s.blockman.Holds p
  | .resetBlockFailureFlags p => s.blockman.Holds p
  | _ => True

/-- `q` lies above `p` and carries no flag. -/
structure OpenAbove (s : NodeState) (p q : BlockPtr) : Prop where
  holds : s.blockman.Holds q
  above : IsAncestor s.entry p q
  ne : q ≠ p
  unflagged : (s.entry q).nStatus.failed = false

/-- The call marks no block in a way that `AcceptBlockHeader` does not notice above it. -/
def NodeAction.KeepsRegister (s : NodeState) : NodeAction → Prop
  | .arrival (.block input block _) =>
      ∀ p q, s.blockman.blockIndex (block.getBlockHeader.getHash node.crypto) = some p →
        OpenAbove s p q → ignoresBlock node input.fRequested p s = true ∨
          ∀ e, checkWholeBlock node input block p s = .error e → e.getReason = .blockMutated
  | .connectTip (.invalid reason) p => reason = .blockMutated ∨
      ∀ q, OpenAbove s p q → (s.entry q).nStatus.level < blockValidScripts
  | .invalidateBlock _ p => ∀ q, OpenAbove s p q → s.chain.contains s.entry q = false →
      (s.entry q).nStatus.level < blockValidScripts
  | .resetBlockFailureFlags p => ∀ f q, ¬ Related s.entry p f →
      (s.entry f).nStatus.failedValid = true → OpenAbove s f q → f ∈ s.blockman.failedBlocks
  | _ => True

end Actions

/-- The active chain leads to `t`, where the coins view is, and all its blocks have data and no
flag. -/
structure ActiveAt (s : NodeState) (t : BlockPtr) : Prop where
  holds : s.blockman.Holds t
  chain : IsChainTo s.entry s.chain t
  coins : s.coinsBestBlock = (s.entry t).hashBlock
  usable : Usable s.toCChainState t

/-- A marked block below an entry without flags is noticed by a header on that entry. -/
structure Tracked (node : NodeParams) (s : NodeState) : Prop where
  indexed : Indexed node s
  active : ∃ t, ActiveAt s t
  noticed : ∀ {p f}, s.blockman.Holds p → (s.entry p).nStatus.failed = false →
    IsAncestor s.entry f p → (s.entry f).nStatus.failedValid = true →
      (s.entry p).nStatus.level < blockValidScripts ∧
        ∃ g ∈ s.blockman.failedBlocks, IsAncestor s.entry g p

section Tracked

variable {node : NodeParams} {s s' : NodeState} {t p q f : BlockPtr}

theorem BlockStatus.failed_of_failedValid {status : BlockStatus} (h : status.failedValid = true) :
    status.failed = true := by
  rw [BlockStatus.failed, h]
  rfl

/-- The header on an entry that `AcceptBlockHeader` accepts has no marked ancestor. -/
theorem Tracked.not_failedValid (h : Tracked node s) {block : CBlockHeader} {nAdjustedTime : Int}
    (hcheck : checkNewHeader node s block nAdjustedTime = .ok (p, none))
    (hf : IsAncestor s.entry f p) : (s.entry f).nStatus.failedValid = false := by
  obtain ⟨hprev, hunflagged, -, hsearch⟩ := checkNewHeader_ok hcheck
  have hheld := h.indexed.holds hprev
  rw [Bool.eq_false_iff]
  intro hflag
  obtain ⟨hlevel, g, hg, hanc⟩ := h.noticed hheld hunflagged hf hflag
  rcases hsearch with ⟨hvalid, -⟩ | ⟨-, hfound⟩
  · rw [BlockStatus.isValid, Bool.and_eq_true, decide_eq_true_eq] at hvalid
    omega
  · exact findFailed_ok h.indexed.tree hheld hfound g
      ((List.perm_insertionSort _ _).mem_iff.mpr hg) hanc

theorem OnlyStatus.sameHeaders {chain : CChainState} (h : OnlyStatus s.toCChainState chain) :
    SameHeaders s (s.withChain chain) where
  blockIndex := h.blockIndex
  blocks := rfl
  entry p := by
    have hentry := h.entry p
    change chain.entry p = { s.entry p with
      nTx := (chain.entry p).nTx
      nChainTx := (chain.entry p).nChainTx
      nStatus := (chain.entry p).nStatus
      nSequenceId := (chain.entry p).nSequenceId }
    rw [hentry]

/-- Steps that add no entry: it is enough to look at the active chain and at the entries without
flags after the step, in the old tree. -/
theorem Tracked.update (h : Tracked node s) (hsame : SameHeaders s s')
    (hholds : s.blockman.Holds t) (hchain : IsChainTo s.entry s'.chain t)
    (hcoins : s'.coinsBestBlock = (s.entry t).hashBlock) (husable : ∀ q, IsAncestor s.entry q t →
      (s'.entry q).nStatus.haveData = true ∧ (s'.entry q).nStatus.failed = false)
    (hnoticed : ∀ p f, s.blockman.Holds p → (s'.entry p).nStatus.failed = false →
      IsAncestor s.entry f p → (s'.entry f).nStatus.failedValid = true →
        (s'.entry p).nStatus.level < blockValidScripts ∧
          ∃ g ∈ s'.blockman.failedBlocks, IsAncestor s.entry g p) : Tracked node s' := by
  have hframe := hsame.sameFrame
  refine ⟨h.indexed.of_sameHeaders hsame, ⟨t, ?_, ?_, ?_, ?_⟩, ?_⟩
  · exact (hframe.holds_iff t).mpr hholds
  · exact hchain.congr h.indexed.tree hholds (fun p _ => hsame.pprev p) fun p _ => hsame.nHeight p
  · rw [hframe.hashBlock]
    exact hcoins
  · intro q hq
    exact husable q ((hframe.isAncestor_iff q t).mp hq)
  · intro p f hp hunflagged hf hflag
    simp only [hframe.isAncestor_iff] at hf ⊢
    exact hnoticed p f ((hframe.holds_iff p).mp hp) hunflagged hf hflag

theorem Tracked.updateChain {c : CChainState} (h : Tracked node s)
    (honly : OnlyStatus s.toCChainState c) (hholds : s.blockman.Holds t)
    (hchain : IsChainTo s.entry c.chain t) (hcoins : c.coinsBestBlock = (s.entry t).hashBlock)
    (husable : ∀ q, IsAncestor s.entry q t →
      (c.entry q).nStatus.haveData = true ∧ (c.entry q).nStatus.failed = false)
    (hnoticed : ∀ p f, s.blockman.Holds p → (c.entry p).nStatus.failed = false →
      IsAncestor s.entry f p → (c.entry f).nStatus.failedValid = true →
        (c.entry p).nStatus.level < blockValidScripts ∧
          ∃ g ∈ c.blockman.failedBlocks, IsAncestor s.entry g p) : Tracked node (s.withChain c) :=
  h.update honly.sameHeaders hholds hchain hcoins husable hnoticed

/-- One block off the active chain has been marked, and registered if entries without flags lie
above it. -/
theorem Tracked.markFailed {c : CChainState} (h : Tracked node s) (ht : ActiveAt s t)
    (honly : OnlyStatus s.toCChainState c) (hchain : c.chain = s.chain)
    (hcoins : c.coinsBestBlock = s.coinsBestBlock)
    (hstatus : ∀ q, (c.entry q).nStatus = if q = p then
      { (s.entry q).nStatus with failedValid := true } else (s.entry q).nStatus)
    (hoff : ¬ IsAncestor s.entry p t)
    (hregister : s.blockman.failedBlocks ⊆ c.blockman.failedBlocks)
    (habove : ∀ q, OpenAbove s p q → (s.entry q).nStatus.level < blockValidScripts ∧
      ∃ g ∈ c.blockman.failedBlocks, IsAncestor s.entry g q) : Tracked node (s.withChain c) := by
  refine h.updateChain honly ht.holds (hchain ▸ ht.chain) (hcoins.trans ht.coins) ?_ ?_
  · intro q hq
    have hne : q ≠ p := by
      rintro rfl
      exact hoff hq
    rw [hstatus, if_neg hne]
    exact ht.usable q hq
  · intro q f hq hunflagged hf hflag
    rw [hstatus] at hunflagged hflag ⊢
    split at hunflagged
    · cases hunflagged
    next hqp =>
      rw [if_neg hqp]
      rcases eq_or_ne f p with rfl | hfp
      · exact habove q ⟨hq, hf, hqp, hunflagged⟩
      · rw [if_neg hfp] at hflag
        obtain ⟨hlow, g, hg, hgq⟩ := h.noticed hq hunflagged hf hflag
        exact ⟨hlow, g, hregister hg, hgq⟩

/-- A step that marks no block `BLOCK_FAILED_VALID`, takes no flag away, and leaves the active
chain and the registered blocks alone. -/
theorem Tracked.quiet (h : Tracked node s) (hsame : SameHeaders s s')
    (hchain : s'.chain = s.chain) (hcoins : s'.coinsBestBlock = s.coinsBestBlock)
    (hregister : s'.blockman.failedBlocks = s.blockman.failedBlocks)
    (hactive : ∀ t q, ActiveAt s t → IsAncestor s.entry q t →
      (s'.entry q).nStatus.haveData = true ∧ (s'.entry q).nStatus.failed = false)
    (hstatus : ∀ q, (s'.entry q).nStatus.failedValid = (s.entry q).nStatus.failedValid ∧
      ((s.entry q).nStatus.failed = true → (s'.entry q).nStatus.failed = true) ∧
      ((s.entry q).nStatus.level < blockValidScripts →
        (s'.entry q).nStatus.level < blockValidScripts)) : Tracked node s' := by
  obtain ⟨t, ht⟩ := h.active
  refine h.update hsame ht.holds (hchain ▸ ht.chain) (hcoins.trans ht.coins)
    (fun q hq => hactive t q ht hq) ?_
  intro p f hp hunflagged hf hflag
  rw [(hstatus f).1] at hflag
  have hunflagged' : (s.entry p).nStatus.failed = false := by
    rw [Bool.eq_false_iff] at hunflagged ⊢
    exact fun hfailed => hunflagged ((hstatus p).2.1 hfailed)
  obtain ⟨hlevel, hfound⟩ := h.noticed hp hunflagged' hf hflag
  rw [hregister]
  exact ⟨(hstatus p).2.2 hlevel, hfound⟩

theorem Tracked.markChildren (h : Tracked node s) (entry' : BlockPtr → CBlockIndex)
    (hsame : SameHeaders s s') (hentry : s'.entry = entry') (hchain : s'.chain = s.chain)
    (hcoins : s'.coinsBestBlock = s.coinsBestBlock)
    (hregister : s'.blockman.failedBlocks = s.blockman.failedBlocks)
    (hmarked : ∀ q, entry' q = s.entry q ∨
      entry' q = (s.entry q).markChild ∧ ∀ t, ActiveAt s t → ¬ IsAncestor s.entry q t) :
    Tracked node s' := by
  refine h.quiet hsame hchain hcoins hregister ?_ ?_
  · intro t q ht hq
    rw [hentry]
    rcases hmarked q with heq | ⟨-, hoff⟩
    · rw [heq]
      exact ht.usable q hq
    · exact absurd hq (hoff t ht)
  · intro q
    rw [hentry]
    rcases hmarked q with heq | ⟨heq, -⟩
    · rw [heq]
      exact ⟨rfl, id, id⟩
    · rw [heq]
      exact ⟨rfl, fun _ => Bool.or_true _, id⟩

theorem Tracked.withEntry (h : Tracked node s) {block : CBlockHeader} {nAdjustedTime : Int}
    {pNew parent : BlockPtr} {e : CBlockIndex} {best : Option BlockPtr} (hfresh : pNew ∉ s.blocks)
    (hnew : s.blockman.blockIndex (block.getHash node.crypto) = none)
    (hcheck : checkNewHeader node s block nAdjustedTime = .ok (parent, none))
    (hlink : LinkedTo s.entry (block.getHash node.crypto) block parent e) :
    Tracked node (s.withEntry pNew e best) := by
  have hnot := h.indexed.not_holds hfresh
  have hparent := h.indexed.holds (checkNewHeader_ok hcheck).1
  have hnew' : s.blockman.blockIndex e.hashBlock = none := hlink.hashBlock ▸ hnew
  have hholds : (s.withEntry pNew e best).blockman.Holds = _ := holds_withEntry hnew'
  have hold : ∀ p, s.blockman.Holds p → (s.withEntry pNew e best).entry p = s.entry p :=
    fun p hp => update_of_mem hnot hp
  have hanc : ∀ a p, s.blockman.Holds p →
      (IsAncestor (s.withEntry pNew e best).entry a p ↔ IsAncestor s.entry a p) :=
    fun a p hp => h.indexed.tree.isAncestor_update hnot hp
  have hmem : ∀ {a p}, s.blockman.Holds p → IsAncestor s.entry a p → s.blockman.Holds a :=
    h.indexed.tree.graded.ancestor_mem
  refine ⟨h.indexed.withEntry hfresh hparent hnew hlink, ?_, ?_⟩
  · obtain ⟨t, ht⟩ := h.active
    refine ⟨t, hholds ▸ .inr ht.holds, ?_, ?_, ?_⟩
    · refine ht.chain.congr h.indexed.tree ht.holds (fun p hp => ?_) fun p hp => ?_
      · rw [hold p hp]
      · rw [hold p hp]
    · rw [hold t ht.holds]
      exact ht.coins
    · intro q hq
      have hq' := (hanc q t ht.holds).mp hq
      have hstatus := ht.usable q hq'
      rw [← hold q (hmem ht.holds hq')] at hstatus
      exact hstatus
  · intro p f hp hunflagged hf hflag
    rw [hholds] at hp
    rcases hp with rfl | hp
    · -- the new entry has no marked ancestor
      have hprev : ((s.withEntry p e best).entry p).pprev = some parent := by
        rw [withEntry_entry_self]
        exact hlink.pprev
      rcases (Ancestor.iff_of_parent hprev).mp hf with rfl | hf
      · rw [withEntry_entry_self, hlink.nStatus] at hflag
        cases hflag
      · have hf' := (hanc f parent hparent).mp hf
        rw [hold f (hmem hparent hf'), h.not_failedValid hcheck hf'] at hflag
        cases hflag
    · have hf' := (hanc f p hp).mp hf
      rw [hold p hp] at hunflagged ⊢
      rw [hold f (hmem hp hf')] at hflag
      obtain ⟨hlevel, g, hg, hgp⟩ := h.noticed hp hunflagged hf' hflag
      exact ⟨hlevel, g, hg, (hanc g p hp).mpr hgp⟩

theorem Tracked.acceptBlockHeader (h : Tracked node s) {block : CBlockHeader}
    {nAdjustedTime : Int} {pNew : BlockPtr} (hfresh : pNew ∉ s.blocks) :
    Tracked node (acceptBlockHeader node block nAdjustedTime pNew s).2 := by
  have houtcome := acceptBlockHeader_outcome block nAdjustedTime h.indexed hfresh
  generalize Verium.acceptBlockHeader node block nAdjustedTime pNew s = after at houtcome ⊢
  cases houtcome with
  | rejected e => exact h
  | known hknown => exact h
  | @marked pprev failedit _ entry' hheld hfailed hflag hpath =>
    refine h.markChildren entry' (.of_marked hpath) rfl rfl rfl rfl fun q => ?_
    by_cases hq : OnPath s.entry failedit pprev q
    · refine .inr ⟨(hpath q).1 hq, fun t ht hanc => ?_⟩
      have hunflagged := (ht.usable failedit (hq.2.1.trans hanc)).2
      rw [BlockStatus.failed_of_failedValid hflag] at hunflagged
      cases hunflagged
    · exact .inl ((hpath q).2 hq)
  | added hnew hcheck hlink => exact h.withEntry hfresh hnew hcheck hlink

theorem BlockStatus.raiseValidity_quiet (status : BlockStatus) :
    let status' := { status with haveData := true }.raiseValidity blockValidTransactions
    status'.failedValid = status.failedValid ∧ (status.failed = true → status'.failed = true) ∧
      (status.level < blockValidScripts → status'.level < blockValidScripts) := by
  dsimp only [BlockStatus.raiseValidity]
  split
  · exact ⟨rfl, id, id⟩
  · split
    · exact ⟨rfl, id, fun _ => (by decide : blockValidTransactions < blockValidScripts)⟩
    · exact ⟨rfl, id, id⟩

/-- The data of a block, if it condemns none below an entry without flags. -/
theorem Tracked.acceptBlockData (h : Tracked node s) {input : AcceptInput} {block : CBlock}
    (hp : s.blockman.Holds p)
    (hkeeps : ∀ q, OpenAbove s p q → ignoresBlock node input.fRequested p s = true ∨
      ∀ e, checkWholeBlock node input block p s = .error e → e.getReason = .blockMutated) :
    Tracked node (acceptBlockData node input block p s).2 := by
  have hsame := acceptBlockData_sameHeaders node input block p s
  have houtcome := acceptBlockData_outcome node input block p s
  generalize Verium.acceptBlockData node input block p s = after at houtcome hsame ⊢
  have hidle : ∀ {t q}, ignoresBlock node input.fRequested p s = false → ActiveAt s t →
      IsAncestor s.entry q t → q ≠ p := by
    rintro t q hlook ht hq rfl
    unfold ignoresBlock at hlook
    dsimp only at hlook
    rw [(ht.usable q hq).1] at hlook
    cases hlook
  cases houtcome with
  | unchanged r => exact h
  | condemned hlook hcheck hreason =>
    obtain ⟨t, ht⟩ := h.active
    apply h.markFailed ht (.updateStatus _ p _) rfl rfl (s.updateStatus_nStatus p · _)
    · exact fun hanc => hidle hlook ht hanc rfl
    · exact List.Subset.refl _
    · intro q hq
      rcases hkeeps q hq with hlook' | hmutated
      · rw [hlook] at hlook'
        cases hlook'
      · exact absurd (hmutated _ hcheck) hreason
  | stored hlook hcheck =>
    have hlinked := receivedBlockTransactions_onlyLinked block.vtx.length p s
    have hstatus := fun q => receivedBlockTransactions_nStatus block.vtx.length p q s
    refine h.quiet hsame hlinked.chain hlinked.coins hlinked.failedBlocks ?_ ?_
    · intro t q ht hq
      rw [hstatus, if_neg (hidle hlook ht hq)]
      exact ht.usable q hq
    · intro q
      rw [hstatus]
      split
      next heq =>
        subst heq
        exact BlockStatus.raiseValidity_quiet _
      next => exact ⟨rfl, id, id⟩

theorem Tracked.acceptBlock (h : Tracked node s) {input : AcceptInput} {block : CBlock}
    {pNew : BlockPtr} (hfresh : pNew ∉ s.blocks)
    (hkeeps : NodeAction.KeepsRegister node s (.arrival (.block input block pNew))) :
    Tracked node (acceptBlock node input block pNew s).2 := by
  have houtcome := acceptBlockHeader_outcome block.getBlockHeader input.nAdjustedTime h.indexed
    hfresh
  have htracked : Tracked node
      (Verium.acceptBlockHeader node block.getBlockHeader input.nAdjustedTime pNew s).2 :=
    h.acceptBlockHeader hfresh
  unfold Verium.acceptBlock
  split
  next e after heq =>
    rw [heq] at htracked
    exact htracked
  next p after heq =>
    rw [heq] at htracked houtcome
    cases houtcome with
    | known hknown =>
      exact htracked.acceptBlockData (h.indexed.holds hknown) fun q hq => hkeeps p q hknown hq
    | @added _ _ best hnew hcheck hlink =>
      have hnew' := hlink.hashBlock ▸ hnew
      have hholds : (s.withEntry pNew _ best).blockman.Holds = _ := holds_withEntry hnew'
      refine htracked.acceptBlockData (hholds ▸ .inl rfl) fun q hq => ?_
      -- nothing lies above a new entry
      have hheld := hq.holds
      rw [hholds] at hheld
      have hq' := hheld.resolve_left hq.ne
      have hold := h.indexed.not_holds hfresh
      have hanc := (h.indexed.tree.isAncestor_update hold hq').mp hq.above
      exact absurd (h.indexed.tree.graded.ancestor_mem hq' hanc) hold

end Tracked

section ConnectTip

variable {node : NodeParams} {s : NodeState} {c : CChainState} {t p q : BlockPtr}

theorem Tracked.of_sameBlocks (h : Tracked node s) (hsame : SameBlocks s.toCChainState c) :
    Tracked node (s.withChain c) := by
  have hentry : ∀ q, (s.withChain c).entry q = s.entry q := fun q => congrFun hsame.entry q
  refine h.quiet (OnlyStatus.of_blockman hsame.blockman).sameHeaders hsame.chain hsame.coins ?_ ?_
    ?_
  · change c.blockman.failedBlocks = _
    rw [hsame.blockman]
  · intro t q ht hq
    rw [hentry]
    exact ht.usable q hq
  · intro q
    rw [hentry]
    exact ⟨rfl, id, id⟩

/-- A block that has been connected becomes the tip. Its chain carries no flag. -/
theorem Tracked.connected (h : Tracked node s) (ht : ActiveAt s t) (hp : s.blockman.Holds p)
    (hprev : (s.entry p).pprev = some t) (hdata : (s.entry p).nStatus.haveData = true)
    (hunflagged : (s.entry p).nStatus.failed = false) :
    Tracked node (s.withChain (((s.raiseScripts p).report p).moveTip p)) := by
  have hflags := sameFlags_raiseScripts s.toCChainState p
  have hraise : s.raiseScripts p = s.updateStatus p fun status =>
      { status with haveUndo := true }.raiseValidity blockValidScripts :=
    if_neg (by rw [hprev]; simp)
  have hclean : ∀ q, IsAncestor s.entry q p →
      (s.entry q).nStatus.haveData = true ∧ (s.entry q).nStatus.failed = false := by
    intro q hq
    rcases (Ancestor.iff_of_parent hprev).mp hq with rfl | hq
    · exact ⟨hdata, hunflagged⟩
    · exact ht.usable q hq
  have hchain : (s.raiseScripts p).chain = s.chain := by rw [hraise]; rfl
  have htree := hflags.1.tree h.indexed.tree
  refine h.updateChain ⟨hflags.1.blockIndex, hflags.1.entry⟩ hp ?_ ?_ ?_ ?_
  · have hset := setTip_isChainTo htree (.inr ⟨t, ht.holds,
      hflags.1.isChainTo_iff.mpr (hchain ▸ ht.chain)⟩) hp
    exact hflags.1.isChainTo_iff.mp hset
  · exact hflags.1.hashBlock p
  · intro q hq
    have hq' := hclean q hq
    exact ⟨(hflags.1.haveData q).trans hq'.1, hflags.2.unflagged_of_unflagged hq'.2⟩
  · intro q f hq hqclean hf hflag
    have hflag' := hflags.2.failedValid f hflag
    have hqclean' := hflags.1.unflagged_of_unflagged hqclean
    rcases eq_or_ne q p with rfl | hne
    · have hnot := (hclean f hf).2
      rw [BlockStatus.failed_of_failedValid hflag'] at hnot
      cases hnot
    · change ((s.raiseScripts p).entry q).nStatus.level < _ ∧
        ∃ g ∈ (s.raiseScripts p).blockman.failedBlocks, _
      rw [hraise, CChainState.updateStatus_nStatus, if_neg hne]
      exact h.noticed hq hqclean' hf hflag'

theorem Tracked.invalidBlockFound (h : Tracked node s) {reason : ValidationInvalidReason}
    (ht : ActiveAt s t) (hp : s.blockman.Holds p) (hprev : (s.entry p).pprev = some t)
    (hkeeps : reason = .blockMutated ∨
      ∀ q, OpenAbove s p q → (s.entry q).nStatus.level < blockValidScripts)
    (hfound : (s.report p).invalidBlockFound p reason = .ok c) : Tracked node (s.withChain c) := by
  unfold CChainState.invalidBlockFound at hfound
  split at hfound
  · cases hfound
    exact h.of_sameBlocks ⟨rfl, rfl, rfl⟩
  next hreason =>
    have hlevel := hkeeps.resolve_left hreason
    have hsame := SameBlocks.invalidChainFound hfound
    have hoff : ¬ IsAncestor s.entry p t := by
      intro hanc
      have hle := h.indexed.tree.graded.height_le ht.holds hanc
      have hsucc := h.indexed.tree.graded.succ hp hprev
      omega
    let mark : BlockStatus → BlockStatus := fun status => { status with failedValid := true }
    have hregister : c.blockman.failedBlocks = p :: s.blockman.failedBlocks := by
      rw [hsame.blockman]
      rfl
    have honly : OnlyStatus s.toCChainState c := by
      refine OnlyStatus.trans (.updateStatus s.toCChainState p mark) ⟨?_, fun q => ?_⟩
      · rw [hsame.blockman]
        rfl
      · rw [hsame.entry]
        rfl
    apply h.markFailed ht honly hsame.chain hsame.coins _ hoff
    · rw [hregister]
      exact List.subset_cons_self _ _
    · rw [hregister]
      exact fun q hq => ⟨hlevel q hq, p, List.mem_cons_self, hq.above⟩
    · intro q
      rw [hsame.entry]
      exact s.updateStatus_nStatus p q mark

theorem Tracked.connectTip (h : Tracked node s) {verdict : Verdict}
    (henabled : NodeAction.Enabled s (.connectTip verdict p))
    (hkeeps : NodeAction.KeepsRegister node s (.connectTip verdict p)) :
    Tracked node (s.next node (.connectTip verdict p)) := by
  obtain ⟨hp, hdata, hunflagged⟩ := henabled
  obtain ⟨t, ht⟩ := h.active
  rw [NodeState.next]
  cases hresult : s.connectTip (fun _ => verdict) p with
  | error e => exact h
  | ok r =>
    obtain ⟨v, c⟩ := r
    change Tracked node (s.withChain c)
    rw [CChainState.connectTip, bind_eq_ok] at hresult
    obtain ⟨⟨⟩, hprev, hresult⟩ := hresult
    rw [assertThat_eq_ok, CChainState.tip, ht.chain.tip_eq] at hprev
    dsimp only at hresult
    rw [bind_eq_ok] at hresult
    obtain ⟨⟨⟩, -, hresult⟩ := hresult
    cases verdict with
    | valid =>
      cases hresult
      exact h.connected ht hp hprev hdata hunflagged
    | invalid reason =>
      rw [bind_eq_ok] at hresult
      obtain ⟨c', hfound, hresult⟩ := hresult
      cases hresult
      exact h.invalidBlockFound ht hp hprev hkeeps hfound
    | error =>
      cases hresult
      exact h.of_sameBlocks ⟨rfl, rfl, rfl⟩

theorem Tracked.disconnectTip (h : Tracked node s) : Tracked node (s.next node .disconnectTip) := by
  obtain ⟨t, ht⟩ := h.active
  rw [NodeState.next]
  cases hresult : s.disconnectTip with
  | error e => exact h
  | ok c =>
    change Tracked node (s.withChain c)
    rw [CChainState.disconnectTip_eq ht.chain.tip_eq ht.coins] at hresult
    split at hresult
    next t' hprev =>
      cases hresult
      have hbelow : IsAncestor s.entry t' t := .of_parent hprev
      have hheld := h.indexed.tree.graded.mem ht.holds hprev
      refine h.updateChain (.of_blockman rfl) hheld ?_ rfl ?_ ?_
      · exact setTip_isChainTo h.indexed.tree (.inr ⟨t, ht.holds, ht.chain⟩) hheld
      · exact fun q hq => ht.usable q (hq.trans hbelow)
      · exact fun q f hq hunflagged hf hflag => h.noticed hq hunflagged hf hflag
    · cases hresult

end ConnectTip

section FindMostWorkChain

/-- Entries off the active chain have been marked as children of failed blocks. -/
structure OnlyMarked (s s' : CChainState) : Prop where
  blockIndex : s'.blockman.blockIndex = s.blockman.blockIndex
  failedBlocks : s'.blockman.failedBlocks = s.blockman.failedBlocks
  chain : s'.chain = s.chain
  coins : s'.coinsBestBlock = s.coinsBestBlock
  marked : ∀ q, s'.entry q = s.entry q ∨
    s'.entry q = (s.entry q).markChild ∧ s.chain.contains s.entry q = false

variable {s s' s'' : CChainState} {p q test : BlockPtr}

theorem OnlyMarked.contains_eq (h : OnlyMarked s s') (q : BlockPtr) :
    s'.chain.contains s'.entry q = s.chain.contains s.entry q := by
  have hheight : (s'.entry q).nHeight = (s.entry q).nHeight := by
    rcases h.marked q with heq | ⟨heq, -⟩
    · rw [heq]
    · rw [heq]
      rfl
  rw [CChain.contains, CChain.contains, h.chain, hheight]

theorem OnlyMarked.trans (h : OnlyMarked s s') (h' : OnlyMarked s' s'') : OnlyMarked s s'' where
  blockIndex := h'.blockIndex.trans h.blockIndex
  failedBlocks := h'.failedBlocks.trans h.failedBlocks
  chain := h'.chain.trans h.chain
  coins := h'.coins.trans h.coins
  marked q := by
    rcases h'.marked q with heq' | ⟨heq', hoff⟩
    · rw [heq']
      exact h.marked q
    · rw [h.contains_eq] at hoff
      refine .inr ⟨?_, hoff⟩
      rcases h.marked q with heq | ⟨heq, -⟩
      · rw [heq', heq]
      · rw [heq', heq]
        rfl

/-- The walk from the entry down to `test` stays off the active chain. -/
inductive OffChain (s : CChainState) (test : BlockPtr) : BlockPtr → Prop where
  | here : OffChain s test test
  | step {p q : BlockPtr} (hout : s.chain.contains s.entry p = false)
      (hprev : (s.entry p).pprev = some q) (hq : OffChain s test q) : OffChain s test p

theorem findUnusable_offChain {fuel : Nat}
    (h : s.findUnusable fuel (some p) = .ok (some test)) : OffChain s test p := by
  induction fuel generalizing p with
  | zero => cases h
  | succ fuel ih =>
    rw [CChainState.findUnusable] at h
    split at h
    · cases h
    next hout =>
      rw [bind_eq_ok] at h
      obtain ⟨⟨⟩, -, h⟩ := h
      split at h
      · cases h
        exact .here
      · cases hprev : (s.entry p).pprev with
        | none =>
          rw [hprev] at h
          cases fuel <;> cases h
        | some q =>
          rw [hprev] at h
          rw [Bool.not_eq_true] at hout
          exact .step hout hprev (ih h)

theorem removePath_onlyMarked {fFailedChain : Bool} {fuel : Nat} (hpath : OffChain s test p)
    (h : OnlyMarked s s') : OnlyMarked s (s'.removePath fFailedChain test fuel (some p)) := by
  induction fuel generalizing p s' with
  | zero => exact h
  | succ fuel ih =>
    rw [CChainState.removePath]
    split
    · exact h.trans ⟨rfl, rfl, rfl, rfl, fun _ => .inl rfl⟩
    next hne =>
      cases hpath with
      | here => exact absurd rfl hne
      | @step _ q hout hprev hq =>
        have hprev' : (s'.entry p).pprev = some q := by
          rcases h.marked p with heq | ⟨heq, -⟩
          · rw [heq, hprev]
          · rw [heq]
            exact hprev
        dsimp only
        rw [hprev']
        refine ih hq ?_
        split
        · refine h.trans ⟨rfl, rfl, rfl, rfl, fun r => ?_⟩
          let mark : BlockStatus → BlockStatus := fun status => { status with failedChild := true }
          change (s'.updateStatus p mark).entry r = _ ∨ (s'.updateStatus p mark).entry r = _ ∧ _
          rw [CChainState.updateStatus_entry]
          split
          next heq =>
            subst heq
            exact .inr ⟨rfl, (h.contains_eq r).trans hout⟩
          next => exact .inl rfl
        · exact h.trans ⟨rfl, rfl, rfl, rfl, fun _ => .inl rfl⟩

theorem findMostWorkLoop_onlyMarked {fuel : Nat} {found : Option BlockPtr}
    (h : s.findMostWorkLoop fuel = .ok (found, s')) : OnlyMarked s s' := by
  induction fuel generalizing s with
  | zero =>
    cases h
    exact ⟨rfl, rfl, rfl, rfl, fun _ => .inl rfl⟩
  | succ fuel ih =>
    rw [CChainState.findMostWorkLoop] at h
    split at h
    · cases h
      exact ⟨rfl, rfl, rfl, rfl, fun _ => .inl rfl⟩
    next pindexNew hlast =>
      rw [bind_eq_ok] at h
      obtain ⟨unusable, hfind, h⟩ := h
      split at h
      · cases h
        exact ⟨rfl, rfl, rfl, rfl, fun _ => .inl rfl⟩
      next test =>
        dsimp only at h
        obtain ⟨invalid, hinvalid⟩ := raiseBestInvalid_eq s pindexNew
        have hraised : OnlyMarked s
            (if (s.entry test).nStatus.failed = true then s.raiseBestInvalid pindexNew else s) := by
          rw [hinvalid]
          split
          · exact ⟨rfl, rfl, rfl, rfl, fun _ => .inl rfl⟩
          · exact ⟨rfl, rfl, rfl, rfl, fun _ => .inl rfl⟩
        exact (removePath_onlyMarked (findUnusable_offChain hfind) hraised).trans (ih h)

theorem Tracked.findMostWorkChain {node : NodeParams} {s : NodeState} (h : Tracked node s) :
    Tracked node (s.next node .findMostWorkChain) := by
  rw [NodeState.next]
  cases hresult : s.findMostWorkChain with
  | error e => exact h
  | ok r =>
    obtain ⟨found, c⟩ := r
    change Tracked node (s.withChain c)
    have hmarked := findMostWorkLoop_onlyMarked hresult
    have hsame : SameHeaders s (s.withChain c) := by
      refine OnlyStatus.sameHeaders ⟨hmarked.blockIndex, fun q => ?_⟩
      rcases hmarked.marked q with heq | ⟨heq, -⟩
      · rw [heq]
      · rw [heq]
        rfl
    refine h.markChildren c.entry hsame rfl hmarked.chain hmarked.coins
      hmarked.failedBlocks fun q => ?_
    rcases hmarked.marked q with heq | ⟨heq, hout⟩
    · exact .inl heq
    · refine .inr ⟨heq, fun t ht hanc => ?_⟩
      rw [ht.chain.contains_iff.mpr hanc] at hout
      cases hout

end FindMostWorkChain

end Verium
