import Mathlib.Data.Prod.Lex
import Verium.Chain.OperatorSpec

/-!
What a restart leaves of the block index: the same tree, with skip pointers built anew, an
empty `m_failed_blocks`, and every descendant of a flagged entry flagged, since the entries are
gone through by height. For the same reason `nTimeMax` is again the latest time up to an entry.
-/

namespace Verium

open Lib

/-- The state `c` holds the tree of `s`, as far as it has been loaded. Flags are those of `s`
or handed on by a flagged parent. -/
structure Loading (s c : NodeState) : Prop where
  blockIndex : c.blockman.blockIndex = s.blockman.blockIndex
  blocks : c.blocks = s.blocks
  failedBlocks : c.blockman.failedBlocks = []
  chain : c.chain = []
  coins : c.coinsBestBlock = s.coinsBestBlock
  hashBlock : ∀ p, (c.entry p).hashBlock = (s.entry p).hashBlock
  pprev : ∀ p, (c.entry p).pprev = (s.entry p).pprev
  nHeight : ∀ p, (c.entry p).nHeight = (s.entry p).nHeight
  pskip : ∀ {p q}, s.blockman.Holds p → (c.entry p).pskip = some q →
    IsAncestor s.entry q p ∧ (s.entry q).nHeight = getSkipHeight (s.entry p).nHeight
  bare : ∀ p, (s.entry p).pprev = none → (c.entry p).pskip = none
  level : ∀ p, (c.entry p).nStatus.level = (s.entry p).nStatus.level
  haveData : ∀ p, (c.entry p).nStatus.haveData = (s.entry p).nStatus.haveData
  failedValid : ∀ p, (c.entry p).nStatus.failedValid = (s.entry p).nStatus.failedValid
  failed : ∀ p, (c.entry p).nStatus.failed = true → (s.entry p).nStatus.failed = true ∨
    ∃ q, (s.entry p).pprev = some q ∧ (c.entry q).nStatus.failed = true

section Loading

variable {s c c' : NodeState} {p : BlockPtr}

theorem Loading.fromDisk (s : NodeState) (childWritten : BlockPtr → Bool) :
    Loading s (s.fromDisk childWritten) where
  blockIndex := rfl
  blocks := rfl
  failedBlocks := rfl
  chain := rfl
  coins := rfl
  hashBlock _ := rfl
  pprev _ := rfl
  nHeight _ := rfl
  pskip _ hskip := by cases hskip
  bare _ _ := rfl
  level _ := rfl
  haveData _ := rfl
  failedValid _ := rfl
  failed p hp := by
    left
    change ((s.entry p).nStatus.failedValid ||
      ((s.entry p).nStatus.failedChild && childWritten p)) = true at hp
    rw [Bool.or_eq_true, Bool.and_eq_true] at hp
    rw [BlockStatus.failed, Bool.or_eq_true]
    exact hp.imp_right And.left

theorem Loading.isAncestor_iff (h : Loading s c) (a p : BlockPtr) :
    IsAncestor c.entry a p ↔ IsAncestor s.entry a p := by
  simp only [IsAncestor, h.pprev]

theorem Loading.tree (h : Loading s c) (ht : BlockTree s.entry s.blockman.Holds) :
    BlockTree c.entry s.blockman.Holds where
  graded := by
    simp only [h.pprev, h.nHeight]
    exact ht.graded
  skip hp hskip := by
    rw [h.isAncestor_iff, h.nHeight, h.nHeight]
    exact h.pskip hp hskip

theorem Loading.holds_iff (h : Loading s c) (p : BlockPtr) :
    c.blockman.Holds p ↔ s.blockman.Holds p := by
  rw [BlockManager.holds_congr h.blockIndex h.hashBlock]

theorem Loading.getAncestor_skip (h : Loading s c) (ht : BlockTree s.entry s.blockman.Holds)
    (hp : s.blockman.Holds p) {parent : BlockPtr} (hprev : (c.entry p).pprev = some parent) :
    ∃ a, getAncestor c.entry parent (getSkipHeight (c.entry p).nHeight) = .ok (some a) ∧
      IsAncestor s.entry a p ∧ (s.entry a).nHeight = getSkipHeight (s.entry p).nHeight := by
  rw [h.pprev] at hprev
  have hsucc := ht.graded.succ hp hprev
  have hlow := getSkipHeight_lt (show 0 < (s.entry p).nHeight by omega)
  obtain ⟨a, hget, ha, hheight⟩ := getAncestor_ok (h.tree ht) (ht.graded.mem hp hprev)
    (show getSkipHeight (s.entry p).nHeight ≤ (c.entry parent).nHeight by
      rw [h.nHeight]
      omega)
  rw [h.isAncestor_iff] at ha
  rw [h.nHeight] at hheight ⊢
  exact ⟨a, hget, .step hprev ha, hheight⟩

/-- `nTimeMax` is the latest block time of the entry and its ancestors, by one step. -/
def TimeSet (entry : BlockPtr → CBlockIndex) (e : CBlockIndex) : Prop :=
  e.nTimeMax =
    match e.pprev with
    | none => e.nTime
    | some q => max (entry q).nTimeMax e.nTime

/-- What `LoadBlockIndex` works out for an entry. -/
structure Computed (c : NodeState) (p : BlockPtr) (e : CBlockIndex) : Prop where
  hashBlock : e.hashBlock = (c.entry p).hashBlock
  pprev : e.pprev = (c.entry p).pprev
  nHeight : e.nHeight = (c.entry p).nHeight
  bare : (c.entry p).pprev = none → e.pskip = (c.entry p).pskip
  pskip : ∀ {parent}, (c.entry p).pprev = some parent →
    getAncestor c.entry parent (getSkipHeight (c.entry p).nHeight) = .ok e.pskip
  time : TimeSet c.entry e
  level : e.nStatus.level = (c.entry p).nStatus.level
  haveData : e.nStatus.haveData = (c.entry p).nStatus.haveData
  failedValid : e.nStatus.failedValid = (c.entry p).nStatus.failedValid
  failed : e.nStatus.failed = true ↔ (c.entry p).nStatus.failed = true ∨
    ∃ q, (c.entry p).pprev = some q ∧ (c.entry q).nStatus.failed = true

theorem BlockStatus.failed_handedOn (status parent : BlockStatus) :
    ({ status with
      failedChild := status.failedChild || (!status.failed && parent.failed) } :
        BlockStatus).failed = (status.failed || parent.failed) := by
  obtain ⟨_, _, _, failedValid, failedChild⟩ := status
  cases failedValid <;> cases failedChild <;> simp [BlockStatus.failed]

theorem Loading.computeEntry_ok (h : Loading s c) (ht : BlockTree s.entry s.blockman.Holds)
    (hp : s.blockman.Holds p) : ∃ e, c.computeEntry p = .ok e ∧ Computed c p e := by
  unfold NodeState.computeEntry
  dsimp only
  split
  next hprev =>
    refine ⟨_, rfl, rfl, rfl, rfl, fun _ => rfl, fun hq => ?_, ?_, rfl, rfl, rfl, ?_⟩
    · rw [hprev] at hq
      cases hq
    · simp [TimeSet, hprev]
    · simp [hprev]
  next parent hprev =>
    obtain ⟨a, hget, -⟩ := h.getAncestor_skip ht hp hprev
    rw [hget]
    refine ⟨_, rfl, rfl, rfl, rfl, fun hq => ?_, fun hq => ?_, ?_, rfl, rfl, rfl, ?_⟩
    · rw [hprev] at hq
      cases hq
    · rw [hprev] at hq
      cases hq
      exact hget
    · simp [TimeSet, hprev]
    · rw [BlockStatus.failed_handedOn, Bool.or_eq_true, hprev]
      simp

/-- The states differ at most in lists that are derived from the index. -/
structure OnlyDerived (c c' : NodeState) : Prop where
  entry : c'.entry = c.entry
  blockIndex : c'.blockman.blockIndex = c.blockman.blockIndex
  blocks : c'.blocks = c.blocks
  failedBlocks : c'.blockman.failedBlocks = c.blockman.failedBlocks
  chain : c'.chain = c.chain
  coins : c'.coinsBestBlock = c.coinsBestBlock

theorem OnlyDerived.refl (c : NodeState) : OnlyDerived c c :=
  ⟨rfl, rfl, rfl, rfl, rfl, rfl⟩

theorem OnlyDerived.trans {c'' : NodeState} (h : OnlyDerived c c') (h' : OnlyDerived c' c'') :
    OnlyDerived c c'' :=
  ⟨h'.entry.trans h.entry, h'.blockIndex.trans h.blockIndex, h'.blocks.trans h.blocks,
    h'.failedBlocks.trans h.failedBlocks, h'.chain.trans h.chain, h'.coins.trans h.coins⟩

theorem OnlyDerived.ite {b : Prop} [Decidable b] (h : OnlyDerived c c') :
    OnlyDerived c (if b then c' else c) := by
  split
  · exact h
  · exact .refl c

theorem OnlyDerived.of_sameBlocks {chain : CChainState} (h : SameBlocks c.toCChainState chain) :
    OnlyDerived c (c.withChain chain) :=
  ⟨h.entry, by rw [show (c.withChain chain).blockman = chain.blockman from rfl, h.blockman], rfl,
    by rw [show (c.withChain chain).blockman = chain.blockman from rfl, h.blockman], h.chain,
    h.coins⟩

theorem loadEntry_ok {e : CBlockIndex} (hcompute : c.computeEntry p = .ok e) :
    ∃ c', c.loadEntry p = .ok c' ∧ OnlyDerived (c.updateEntry p fun _ => e) c' := by
  rw [NodeState.loadEntry, hcompute]
  refine ⟨_, rfl, ?_⟩
  refine OnlyDerived.trans ?_ (.ite ⟨rfl, rfl, rfl, rfl, rfl, rfl⟩)
  refine OnlyDerived.trans ?_ (.ite (.of_sameBlocks (.raiseBestInvalid _ p)))
  refine OnlyDerived.trans ?_ (.ite (.of_sameBlocks (.insertCandidate _ p)))
  exact .ite ⟨rfl, rfl, rfl, rfl, rfl, rfl⟩

section Rounds

variable {e : CBlockIndex} (ht : BlockTree s.entry s.blockman.Holds) (hp : s.blockman.Holds p)
  (h : Loading s c) (he : Computed c p e) (hsame : OnlyDerived (c.updateEntry p fun _ => e) c')

include hsame in
theorem OnlyDerived.entry_eq (q : BlockPtr) : c'.entry q = if q = p then e else c.entry q := by
  rw [hsame.entry, NodeState.updateEntry_entry]

include ht h he hsame in
theorem Loading.loadEntry : Loading s c' := by
  have hentry := hsame.entry_eq
  have hgrows : ∀ q, (c.entry q).nStatus.failed = true → (c'.entry q).nStatus.failed = true := by
    intro q hq
    rw [hentry]
    split
    next heq =>
      subst heq
      exact he.failed.mpr (.inl hq)
    next => exact hq
  have hfield : ∀ {β : Type} (f : CBlockIndex → β), f e = f (c.entry p) →
      ∀ q, f (c'.entry q) = f (c.entry q) := by
    intro β f hf q
    rw [hentry]
    split
    next heq => rw [heq, hf]
    next => rfl
  refine ⟨hsame.blockIndex.trans h.blockIndex, hsame.blocks.trans h.blocks,
    hsame.failedBlocks.trans h.failedBlocks, hsame.chain.trans h.chain,
    hsame.coins.trans h.coins,
    fun q => (hfield (·.hashBlock) he.hashBlock q).trans (h.hashBlock q),
    fun q => (hfield (·.pprev) he.pprev q).trans (h.pprev q),
    fun q => (hfield (·.nHeight) he.nHeight q).trans (h.nHeight q), ?_, ?_,
    fun q => (hfield (·.nStatus.level) he.level q).trans (h.level q),
    fun q => (hfield (·.nStatus.haveData) he.haveData q).trans (h.haveData q),
    fun q => (hfield (·.nStatus.failedValid) he.failedValid q).trans (h.failedValid q), ?_⟩
  · intro q r hq hskip
    rw [hentry] at hskip
    split at hskip
    next heq =>
      subst heq
      cases hprev : (c.entry q).pprev with
      | none =>
        rw [he.bare hprev] at hskip
        exact h.pskip hq hskip
      | some parent =>
        obtain ⟨a, hget, ha⟩ := h.getAncestor_skip ht hq hprev
        rw [he.pskip hprev, hskip] at hget
        cases hget
        exact ha
    next => exact h.pskip hq hskip
  · intro q hroot
    rw [hentry]
    split
    next heq =>
      subst heq
      rw [he.bare ((h.pprev q).trans hroot)]
      exact h.bare q hroot
    next => exact h.bare q hroot
  · intro q hq
    have hold : (c.entry q).nStatus.failed = true → (s.entry q).nStatus.failed = true ∨
        ∃ r, (s.entry q).pprev = some r ∧ (c'.entry r).nStatus.failed = true := by
      intro hq
      exact (h.failed q hq).imp_right fun ⟨r, hr, hflag⟩ => ⟨r, hr, hgrows r hflag⟩
    rw [hentry] at hq
    split at hq
    next heq =>
      subst heq
      rcases he.failed.mp hq with hflag | ⟨r, hr, hflag⟩
      · exact hold hflag
      · exact .inr ⟨r, (h.pprev q).symm.trans hr, hgrows r hflag⟩
    next => exact hold hq

/-- What follows from the entry of the parent has been worked out. -/
structure HandedOn (entry : BlockPtr → CBlockIndex) (e : CBlockIndex) : Prop where
  failed : ∀ q, e.pprev = some q → (entry q).nStatus.failed = true → e.nStatus.failed = true
  time : TimeSet entry e
  skip : e.pskip.isSome = e.pprev.isSome

theorem TimeSet.congr {entry entry' : BlockPtr → CBlockIndex} {e : CBlockIndex}
    (h : TimeSet entry e) (hparent : ∀ q, e.pprev = some q → entry' q = entry q) :
    TimeSet entry' e := by
  unfold TimeSet at h ⊢
  cases hprev : e.pprev with
  | none => simpa only [hprev] using h
  | some q => simpa only [hprev, hparent q hprev] using h

theorem HandedOn.congr {entry entry' : BlockPtr → CBlockIndex} {e : CBlockIndex}
    (h : HandedOn entry e) (hparent : ∀ q, e.pprev = some q → entry' q = entry q) :
    HandedOn entry' e where
  failed q hq hflag := h.failed q hq (hparent q hq ▸ hflag)
  time := h.time.congr hparent
  skip := h.skip

include ht hp h he in
theorem Computed.handedOn : HandedOn c.entry e where
  failed q hq hflag := he.failed.mpr (.inr ⟨q, he.pprev.symm.trans hq, hflag⟩)
  time := he.time
  skip := by
    rw [he.pprev]
    cases hprev : (c.entry p).pprev with
    | none =>
      rw [he.bare hprev, h.bare p ((h.pprev p).symm.trans hprev)]
    | some parent =>
      obtain ⟨a, hget, -⟩ := h.getAncestor_skip ht hp hprev
      rw [he.pskip hprev] at hget
      rw [Except.ok.inj hget]
      rfl

end Rounds

/-- The loop goes up by height, so what it has worked out stays. -/
theorem Loading.loadEntries (ht : BlockTree s.entry s.blockman.Holds) (done : List BlockPtr)
    {l : List BlockPtr} (hl : ∀ p ∈ done ++ l, s.blockman.Holds p)
    (hsorted : (done ++ l).Pairwise fun p q => (s.entry p).nHeight ≤ (s.entry q).nHeight)
    (h : Loading s c) (hdone : ∀ p ∈ done, HandedOn c.entry (c.entry p)) :
    ∃ c', l.foldlM NodeState.loadEntry c = .ok c' ∧ Loading s c' ∧
      ∀ p ∈ done ++ l, HandedOn c'.entry (c'.entry p) := by
  induction l generalizing done c with
  | nil =>
    rw [List.append_nil]
    exact ⟨c, rfl, h, hdone⟩
  | cons p rest ih =>
    have hheld := hl p (by simp)
    obtain ⟨e, hcompute, he⟩ := h.computeEntry_ok ht hheld
    obtain ⟨c₁, hstep, hsame⟩ := loadEntry_ok hcompute
    have hload := h.loadEntry ht he hsame
    have hassoc : done ++ p :: rest = (done ++ [p]) ++ rest := by simp
    rw [hassoc] at hl hsorted ⊢
    have hstays : ∀ q ∈ done ++ [p], ∀ r, (s.entry q).pprev = some r →
        c₁.entry r = c.entry r := by
      intro q hq r hprev
      have hsucc := ht.graded.succ (hl q (List.mem_append_left _ hq)) hprev
      -- the parent is lower, so it is not the entry of this round
      have hle : (s.entry q).nHeight ≤ (s.entry p).nHeight := by
        rcases List.mem_append.mp hq with hq | hq
        · have hpair := (List.pairwise_append.mp hsorted).1
          exact (List.pairwise_append.mp hpair).2.2 q hq p (by simp)
        · rw [List.mem_singleton.mp hq]
      rw [hsame.entry_eq, if_neg]
      rintro rfl
      omega
    have hhanded : ∀ q ∈ done ++ [p], HandedOn c₁.entry (c₁.entry q) := by
      intro q hq
      refine HandedOn.congr ?_ fun r hr => hstays q hq r ((hload.pprev q).symm.trans hr)
      rw [hsame.entry_eq]
      split
      next heq => exact he.handedOn ht hheld h
      next hqp =>
        rcases List.mem_append.mp hq with hq | hq
        · exact hdone q hq
        · exact absurd (List.mem_singleton.mp hq) hqp
    obtain ⟨c', hrest, hloaded⟩ := ih _ hl hsorted hload hhanded
    exact ⟨c', foldlM_cons_eq_ok.mpr ⟨c₁, hstep, hrest⟩, hloaded⟩

theorem sortedByHeight_pairwise (s : NodeState) :
    s.sortedByHeight.Pairwise fun p q => (s.entry p).nHeight ≤ (s.entry q).nHeight := by
  let r : BlockPtr → BlockPtr → Prop := fun p q =>
    (s.entry p).nHeight < (s.entry q).nHeight ∨ (s.entry p).nHeight = (s.entry q).nHeight ∧ p ≤ q
  have hlex : ∀ p q, r p q ↔ toLex ((s.entry p).nHeight, p) ≤ toLex ((s.entry q).nHeight, q) := by
    intro p q
    rw [Prod.Lex.toLex_le_toLex]
  have htotal : Std.Total r := ⟨fun p q => by
    rw [hlex, hlex]
    exact le_total _ _⟩
  have htrans : IsTrans BlockPtr r := ⟨fun p q w => by
    rw [hlex, hlex, hlex]
    exact le_trans⟩
  have hsorted : s.sortedByHeight.Pairwise r := List.pairwise_insertionSort r s.blocks
  exact hsorted.imp fun h => h.elim Nat.le_of_lt fun h => h.1.le

/-- `LoadBlockIndex` does not fail, and works out what the database does not hold. -/
theorem loadBlockIndex_spec (ht : BlockTree s.entry s.blockman.Holds)
    (hlisted : ∀ {p}, p ∈ s.blocks ↔ s.blockman.Holds p) (childWritten : BlockPtr → Bool) :
    ∃ c, s.loadBlockIndex childWritten = .ok c ∧ Loading s c ∧
      ∀ p, s.blockman.Holds p → HandedOn c.entry (c.entry p) := by
  have hmem : ∀ {p}, p ∈ s.sortedByHeight ↔ s.blockman.Holds p := by
    intro p
    rw [NodeState.sortedByHeight, List.mem_insertionSort]
    exact hlisted
  obtain ⟨c, hfold, hload, hhanded⟩ := (Loading.fromDisk s childWritten).loadEntries ht []
    (fun p hp => hmem.mp hp) (sortedByHeight_pairwise s) (by simp)
  exact ⟨c, hfold, hload, fun p hp => hhanded p (hmem.mpr hp)⟩

/-- A restart leaves the tree as it was loaded, with every flag handed on, and the active chain
to the best block of the coins view. -/
theorem restart_spec {s' : NodeState} {childWritten : BlockPtr → Bool}
    (ht : BlockTree s.entry s.blockman.Holds) (hlisted : ∀ {p}, p ∈ s.blocks ↔ s.blockman.Holds p)
    (hfiled : ∀ {hash p}, s.blockman.blockIndex hash = some p → (s.entry p).hashBlock = hash)
    (h : restart childWritten s = .ok s') :
    ∃ c t, Loading s c ∧ (∀ p, s.blockman.Holds p → HandedOn c.entry (c.entry p)) ∧
      s'.blockman = c.blockman ∧ s'.coinsBestBlock = s.coinsBestBlock ∧ s'.blocks = s.blocks ∧
      s.blockman.blockIndex s.coinsBestBlock = some t ∧ IsChainTo c.entry s'.chain t := by
  obtain ⟨c, hindex, hload, hhanded⟩ := loadBlockIndex_spec ht hlisted childWritten
  rw [restart, hindex, ok_bind] at h
  unfold NodeState.loadChainTip at h
  split at h
  next t htip =>
    rw [hload.blockIndex, hload.coins] at htip
    have hheld : s.blockman.Holds t := by
      rw [← hfiled htip] at htip
      exact htip
    rw [bind_eq_ok] at h
    obtain ⟨chain, hprune, h⟩ := h
    cases h
    have hsame : SameBlocks { c.toCChainState with chain := c.chain.setTip c.entry (some t) }
        chain := by
      unfold CChainState.pruneBlockIndexCandidates at hprune
      split at hprune
      · rw [bind_eq_ok] at hprune
        obtain ⟨⟨⟩, -, hprune⟩ := hprune
        cases hprune
        exact ⟨rfl, rfl, rfl⟩
      · cases hprune
    refine ⟨c, t, hload, hhanded, hsame.blockman,
      hsame.coins.trans hload.coins, hload.blocks, htip, ?_⟩
    change IsChainTo c.entry chain.chain t
    rw [hsame.chain]
    exact setTip_isChainTo (hload.tree ht) (.inl hload.chain) hheld
  · cases h

end Loading

end Verium
