import Verium.Chain.AcceptSpec
import Verium.Chain.Operator
import Verium.Chain.Reached

/-!
What `InvalidateBlock` and `ResetBlockFailureFlags` do to the status of the entries, to
`m_failed_blocks` and to the active chain. Invalidation cuts the active chain and marks what it
cuts off; a reset clears the flags of the ancestors and descendants of one block.
-/

namespace Verium

open Lib

section Frames

/-- The states differ at most in the candidates, the best invalid entry and the reports. -/
structure SameBlocks (s s' : CChainState) : Prop where
  blockman : s'.blockman = s.blockman
  chain : s'.chain = s.chain
  coins : s'.coinsBestBlock = s.coinsBestBlock

variable {s s' s'' : CChainState} {p : BlockPtr}

namespace SameBlocks

theorem refl (s : CChainState) : SameBlocks s s :=
  ⟨rfl, rfl, rfl⟩

theorem trans (h : SameBlocks s s') (h' : SameBlocks s' s'') : SameBlocks s s'' :=
  ⟨h'.blockman.trans h.blockman, h'.chain.trans h.chain, h'.coins.trans h.coins⟩

theorem entry (h : SameBlocks s s') : s'.entry = s.entry := by
  rw [CChainState.entry, h.blockman, CChainState.entry]

theorem insertCandidate (s : CChainState) (p : BlockPtr) : SameBlocks s (s.insertCandidate p) := by
  obtain ⟨candidates, heq⟩ := CChainState.insertCandidate_eq s p
  rw [heq]
  exact ⟨rfl, rfl, rfl⟩

theorem ite {c : Prop} [Decidable c] (h : SameBlocks s s') (h' : SameBlocks s s'') :
    SameBlocks s (if c then s' else s'') := by
  split
  · exact h
  · exact h'

theorem insertCandidates (s : CChainState) (l : List BlockPtr) :
    SameBlocks s (l.foldl CChainState.insertCandidate s) := by
  induction l generalizing s with
  | nil => exact .refl s
  | cons p rest ih => exact (insertCandidate s p).trans (ih _)

/-- Besides the mark, only the candidates change when a block is disconnected. -/
theorem markDisconnected (s : CChainState) (p q : BlockPtr) :
    SameBlocks (s.updateStatus p fun status => { status with failedValid := true })
      (s.markDisconnected p q) := by
  unfold CChainState.markDisconnected
  refine SameBlocks.trans ?_ (insertCandidate _ q)
  exact ⟨rfl, rfl, rfl⟩

theorem raiseBestInvalid (s : CChainState) (p : BlockPtr) :
    SameBlocks s (s.raiseBestInvalid p) := by
  obtain ⟨invalid, heq⟩ := raiseBestInvalid_eq s p
  rw [heq]
  exact ⟨rfl, rfl, rfl⟩

theorem invalidChainFound (h : s.invalidChainFound p = .ok s') : SameBlocks s s' := by
  rw [CChainState.invalidChainFound, bind_eq_ok] at h
  obtain ⟨⟨⟩, -, h⟩ := h
  cases h
  exact raiseBestInvalid s p

end SameBlocks

end Frames

section InvalidateBlock

variable {s s' s'' : CChainState} {t t' t'' pindex m m' : BlockPtr}

/-- The active chain of `s`, which led to `t`, has been cut down to `t'`, and the blocks cut
off have been marked. -/
structure CutTo (s s' : CChainState) (t t' : BlockPtr) : Prop extends OnlyStatus s s' where
  failedBlocks : s'.blockman.failedBlocks = s.blockman.failedBlocks
  blocksUnlinked : s'.blockman.blocksUnlinked = s.blockman.blocksUnlinked
  chain : IsChainTo s.entry s'.chain t'
  coins : s'.coinsBestBlock = (s.entry t').hashBlock
  below : IsAncestor s.entry t' t
  marked : ∀ q, IsAncestor s.entry q t → ¬ IsAncestor s.entry q t' →
    (s'.entry q).nStatus = { (s.entry q).nStatus with failedValid := true }
  kept : ∀ q, (IsAncestor s.entry q t → IsAncestor s.entry q t') →
    (s'.entry q).nStatus = (s.entry q).nStatus

theorem CutTo.refl (hchain : IsChainTo s.entry s.chain t)
    (hcoins : s.coinsBestBlock = (s.entry t).hashBlock) : CutTo s s t t where
  toOnlyStatus := .of_blockman rfl
  failedBlocks := rfl
  blocksUnlinked := rfl
  chain := hchain
  coins := hcoins
  below := .refl t
  marked _ hq hnot := absurd hq hnot
  kept _ _ := rfl

theorem CutTo.of_sameBlocks (h : CutTo s s' t t') (hsame : SameBlocks s' s'') :
    CutTo s s'' t t' where
  toOnlyStatus := h.toOnlyStatus.trans (.of_blockman hsame.blockman)
  failedBlocks := by rw [hsame.blockman, h.failedBlocks]
  blocksUnlinked := by rw [hsame.blockman, h.blocksUnlinked]
  chain := by
    rw [hsame.chain]
    exact h.chain
  coins := hsame.coins.trans h.coins
  below := h.below
  marked q hq hnot := by
    rw [hsame.entry]
    exact h.marked q hq hnot
  kept q hq := by
    rw [hsame.entry]
    exact h.kept q hq

theorem CutTo.coins_eq (h : CutTo s s' t t') : s'.coinsBestBlock = (s'.entry t').hashBlock := by
  rw [h.coins, h.hashBlock]

theorem CutTo.cut (ht : BlockTree s.entry s.blockman.Holds) (htip : s.blockman.Holds t)
    (h : CutTo s s' t t') (hprev : (s.entry t').pprev = some t'') :
    s'.disconnectTip = .ok (s'.moveTip t'') ∧
      CutTo s ((s'.moveTip t'').updateStatus t' fun status => { status with failedValid := true })
        t t'' := by
  have hheld := ht.graded.ancestor_mem htip h.below
  have hheld' := ht.graded.mem hheld hprev
  have hsucc := ht.graded.succ hheld hprev
  have hmoved : OnlyStatus s' (s'.moveTip t'') := .of_blockman rfl
  have habove : ¬ IsAncestor s.entry t' t'' := by
    intro hanc
    have hle := ht.graded.height_le hheld' hanc
    omega
  constructor
  · have hchain := h.toOnlyStatus.isChainTo_iff.mpr h.chain
    rw [CChainState.disconnectTip_eq hchain.tip_eq h.coins_eq, h.pprev, hprev]
  · have hchain : IsChainTo s'.entry (s'.moveTip t'').chain t'' := by
      apply setTip_isChainTo (h.tree ht)
      · exact .inr ⟨t', hheld, h.toOnlyStatus.isChainTo_iff.mpr h.chain⟩
      · exact hheld'
    refine ⟨h.toOnlyStatus.trans (hmoved.trans (.updateStatus _ t' _)), h.failedBlocks,
      h.blocksUnlinked, h.toOnlyStatus.isChainTo_iff.mp hchain, h.hashBlock t'',
      (Ancestor.of_parent hprev).trans h.below, ?_, ?_⟩
    · intro q hq hnot
      rw [CChainState.updateStatus_nStatus]
      split
      next heq =>
        subst heq
        rw [show (s'.moveTip t'').entry = s'.entry from rfl, h.kept q fun _ => .refl q]
      next hne =>
        refine h.marked q hq fun hq' => ?_
        rcases (Ancestor.iff_of_parent hprev).mp hq' with heq | hq''
        · exact hne heq
        · exact hnot hq''
    · intro q hq
      rw [CChainState.updateStatus_nStatus, if_neg]
      · exact h.kept q fun hqt => .step hprev (hq hqt)
      · rintro rfl
        exact habove (hq h.below)

/-- The block to be marked and registered: `pindex` as long as nothing has been cut off, then
the last block cut off. -/
def LastCut (s : CChainState) (pindex t t' m : BlockPtr) : Prop :=
  t' = t ∧ m = pindex ∨
    (s.entry m).pprev = some t' ∧ IsAncestor s.entry m t ∧ IsAncestor s.entry pindex m

theorem LastCut.isAncestor (h : LastCut s pindex t t' m) : IsAncestor s.entry pindex m := by
  rcases h with ⟨-, rfl⟩ | ⟨-, -, hanc⟩
  · exact .refl m
  · exact hanc

/-- All that has been cut off lies above the last block cut off. -/
theorem LastCut.isAncestor_of_cut (h : LastCut s pindex t t' m)
    (ht : BlockTree s.entry s.blockman.Holds) (htip : s.blockman.Holds t)
    (hcut : IsAncestor s.entry t' t) {q : BlockPtr} (hq : IsAncestor s.entry q t)
    (hnot : ¬ IsAncestor s.entry q t') : IsAncestor s.entry m q := by
  rcases h with ⟨rfl, -⟩ | ⟨hprev, hm, -⟩
  · exact absurd hq hnot
  · have hsucc := ht.graded.succ (ht.graded.ancestor_mem htip hm) hprev
    have hhigh : ¬ (s.entry q).nHeight ≤ (s.entry t').nHeight :=
      fun hle => hnot (ht.graded.ancestor_of_le htip hq hcut hle)
    exact ht.graded.ancestor_of_le htip hm hq (by omega)

/-- The walk never finds the mark it looks for: what the chain has been cut down to carries no
flag. -/
theorem unmarkChild_eq
    (hclean : ∀ q, IsAncestor s.entry q t → (s.entry q).nStatus.failed = false)
    (h : CutTo s s' t t'') : s'.unmarkChild m t'' = s' := by
  unfold CChainState.unmarkChild
  rw [if_neg]
  rintro ⟨rfl, hflag⟩
  have hunflagged := hclean t'' h.below
  rw [h.kept t'' fun _ => .refl t''] at hflag
  rw [BlockStatus.failed, hflag] at hunflagged
  cases hunflagged

theorem invalidateLoop_cutTo (ht : BlockTree s.entry s.blockman.Holds) (htip : s.blockman.Holds t)
    (hclean : ∀ q, IsAncestor s.entry q t → (s.entry q).nStatus.failed = false)
    {rounds : Nat} {candidates : List BlockPtr} (h : CutTo s s' t t')
    (hlast : LastCut s pindex t t' m)
    (hloop : s'.invalidateLoop pindex rounds m candidates = .ok (m', s'')) :
    ∃ t'', CutTo s s'' t t'' ∧ LastCut s pindex t t'' m' := by
  induction rounds generalizing s' t' m candidates with
  | zero =>
    cases hloop
    exact ⟨t', h, hlast⟩
  | succ rounds ih =>
    rw [CChainState.invalidateLoop] at hloop
    have hchain := h.toOnlyStatus.isChainTo_iff.mpr h.chain
    split at hloop
    · cases hloop
      exact ⟨t', h, hlast⟩
    next hin =>
      rw [not_not, hchain.contains_iff, h.isAncestor_iff] at hin
      rw [CChainState.tip, hchain.tip_eq] at hloop
      dsimp only at hloop
      cases hprev : (s.entry t').pprev with
      | none =>
        -- genesis: the hash of its parent is read
        rw [CChainState.disconnectTip_eq hchain.tip_eq h.coins_eq, h.pprev, hprev] at hloop
        cases hloop
      | some t'' =>
        obtain ⟨hdisconnect, hcut⟩ := h.cut ht htip hprev
        rw [hdisconnect, ok_bind, bind_eq_ok] at hloop
        obtain ⟨⟨⟩, -, hloop⟩ := hloop
        have hparent : ((s'.moveTip t'').entry t').pprev = some t'' :=
          (h.pprev t').trans hprev
        rw [hparent] at hloop
        dsimp only at hloop
        have hmarked : CutTo s ((s'.moveTip t'').markDisconnected t' t'') t t'' :=
          hcut.of_sameBlocks (.markDisconnected _ t' t'')
        rw [unmarkChild_eq hclean hmarked] at hloop
        exact ih (hmarked.of_sameBlocks (.insertCandidates _ _)) (.inr ⟨hprev, h.below, hin⟩)
          hloop

/-- `InvalidateBlock` cuts the active chain, and then marks and registers one block that is not
in what is left of it; if a shutdown keeps it from cutting anything, it changes nothing. -/
theorem invalidateBlock_spec {s s' : NodeState} {r : Bool} {rounds : Nat}
    (ht : BlockTree s.entry s.blockman.Holds) (htip : s.blockman.Holds t)
    (hchain : IsChainTo s.entry s.chain t) (hcoins : s.coinsBestBlock = (s.entry t).hashBlock)
    (hclean : ∀ q, IsAncestor s.entry q t → (s.entry q).nStatus.failed = false)
    (h : invalidateBlock rounds pindex s = .ok (r, s')) :
    ∃ t' m c, CutTo s.toCChainState c t t' ∧ LastCut s.toCChainState pindex t t' m ∧
      s' = s.withChain s'.toCChainState ∧
      (IsAncestor s.entry m t' ∧ s' = s.withChain c ∨
        ¬ IsAncestor s.entry m t' ∧
          SameBlocks ((s.withChain c).markInvalid m).toCChainState s'.toCChainState) := by
  rw [invalidateBlock, bind_eq_ok] at h
  obtain ⟨candidates, -, h⟩ := h
  rw [bind_eq_ok] at h
  obtain ⟨⟨m, c⟩, hloop, h⟩ := h
  obtain ⟨t', hcut, hlast⟩ := invalidateLoop_cutTo ht htip hclean (.refl hchain hcoins)
    (.inl ⟨rfl, rfl⟩) hloop
  have hchain' : IsChainTo (s.withChain c).entry (s.withChain c).chain t' :=
    hcut.toOnlyStatus.isChainTo_iff.mpr hcut.chain
  refine ⟨t', m, c, hcut, hlast, ?_⟩
  dsimp only at h
  split at h
  next hin =>
    cases h
    rw [hchain'.contains_iff] at hin
    exact ⟨rfl, .inl ⟨(hcut.isAncestor_iff m t').mp hin, rfl⟩⟩
  next hout =>
    rw [bind_eq_ok] at h
    obtain ⟨chain, hfound, h⟩ := h
    cases h
    rw [hchain'.contains_iff] at hout
    refine ⟨rfl, .inr ⟨fun hanc => hout ((hcut.isAncestor_iff m t').mpr hanc), ?_⟩⟩
    exact SameBlocks.trans (.insertCandidates _ _) (.invalidChainFound hfound)

end InvalidateBlock

section ResetBlockFailureFlags

/-- The status without its failure flags. -/
def BlockStatus.cleared (status : BlockStatus) : BlockStatus :=
  { status with failedValid := false, failedChild := false }

/-- Flags of entries in `P` have been cleared, and cleared entries are no longer registered. -/
structure Cleared (P : BlockPtr → Prop) (s s' : CChainState) : Prop extends OnlyStatus s s' where
  blocksUnlinked : s'.blockman.blocksUnlinked = s.blockman.blocksUnlinked
  chain : s'.chain = s.chain
  coins : s'.coinsBestBlock = s.coinsBestBlock
  nStatus : ∀ q, (s'.entry q).nStatus = (s.entry q).nStatus ∨
    P q ∧ (s'.entry q).nStatus = (s.entry q).nStatus.cleared
  registered : ∀ f ∈ s'.blockman.failedBlocks,
    f ∈ s.blockman.failedBlocks ∧ (s'.entry f).nStatus = (s.entry f).nStatus
  dropped : ∀ f ∈ s.blockman.failedBlocks, f ∉ s'.blockman.failedBlocks →
    (s'.entry f).nStatus.failed = false

variable {P : BlockPtr → Prop} {s s' s'' : CChainState} {pindex tip p q : BlockPtr}

namespace Cleared

theorem of_sameBlocks (h : SameBlocks s s') : Cleared P s s' where
  toOnlyStatus := .of_blockman h.blockman
  blocksUnlinked := by rw [h.blockman]
  chain := h.chain
  coins := h.coins
  nStatus q := by
    rw [h.entry]
    exact .inl rfl
  registered f hf := by
    rw [h.blockman] at hf
    rw [h.entry]
    exact ⟨hf, rfl⟩
  dropped f hf hnot := by
    rw [h.blockman] at hnot
    exact absurd hf hnot

theorem unflagged (h : Cleared P s s') (hq : (s.entry q).nStatus.failed = false) :
    (s'.entry q).nStatus.failed = false := by
  rcases h.nStatus q with heq | ⟨-, heq⟩
  · rw [heq]
    exact hq
  · rw [heq]
    rfl

theorem trans (h : Cleared P s s') (h' : Cleared P s' s'') : Cleared P s s'' where
  toOnlyStatus := h.toOnlyStatus.trans h'.toOnlyStatus
  blocksUnlinked := h'.blocksUnlinked.trans h.blocksUnlinked
  chain := h'.chain.trans h.chain
  coins := h'.coins.trans h.coins
  nStatus q := by
    rcases h'.nStatus q with heq' | ⟨hP, heq'⟩
    · rw [heq']
      exact h.nStatus q
    · refine .inr ⟨hP, ?_⟩
      rcases h.nStatus q with heq | ⟨-, heq⟩
      · rw [heq', heq]
      · rw [heq', heq]
        rfl
  registered f hf := by
    obtain ⟨hmem', heq'⟩ := h'.registered f hf
    obtain ⟨hmem, heq⟩ := h.registered f hmem'
    exact ⟨hmem, heq'.trans heq⟩
  dropped f hf hnot := by
    by_cases hmem : f ∈ s'.blockman.failedBlocks
    · exact h'.dropped f hmem hnot
    · exact h'.unflagged (h.dropped f hf hmem)

theorem mono {Q : BlockPtr → Prop} (h : Cleared P s s') (hPQ : ∀ q, P q → Q q) : Cleared Q s s' :=
  { h with nStatus := fun q => (h.nStatus q).imp_right fun hq => ⟨hPQ q hq.1, hq.2⟩ }

theorem clearFailed (s : CChainState) (hp : P p) : Cleared P s (s.clearFailed p) := by
  have hstatus : ∀ q, ((s.clearFailed p).entry q).nStatus =
      if q = p then (s.entry q).nStatus.cleared else (s.entry q).nStatus :=
    fun q => s.updateStatus_nStatus p q BlockStatus.cleared
  refine ⟨⟨rfl, (OnlyStatus.updateStatus s p BlockStatus.cleared).entry⟩, rfl, rfl, rfl, ?_, ?_,
    ?_⟩
  · intro q
    rw [hstatus]
    split
    next heq =>
      subst heq
      exact .inr ⟨hp, rfl⟩
    next => exact .inl rfl
  · intro f hf
    have hmem : f ∈ s.blockman.failedBlocks.filter (· ≠ p) := hf
    rw [List.mem_filter, decide_eq_true_eq] at hmem
    rw [hstatus, if_neg hmem.2]
    exact ⟨hmem.1, rfl⟩
  · intro f hf hnot
    have hnotMem : f ∉ s.blockman.failedBlocks.filter (· ≠ p) := hnot
    have heq : f = p := by
      by_contra hne
      exact hnotMem (List.mem_filter.mpr ⟨hf, by simpa using hne⟩)
    rw [hstatus, if_pos heq]
    rfl

theorem clearFailed_self (s : CChainState) (p : BlockPtr) :
    ((s.clearFailed p).entry p).nStatus.failed = false := by
  change ((s.updateStatus p BlockStatus.cleared).entry p).nStatus.failed = false
  rw [CChainState.updateStatus_nStatus, if_pos rfl]
  rfl

end Cleared

/-- Besides clearing the entry, only candidates and the best invalid entry change. -/
theorem SameBlocks.reviveEntry (s : CChainState) (tip p : BlockPtr) :
    SameBlocks (s.clearFailed p) (s.reviveEntry tip p) :=
  SameBlocks.trans (.ite (.insertCandidate _ p) (.refl _)) (.ite ⟨rfl, rfl, rfl⟩ (.refl _))

/-- One round of the loop over the index leaves the entry without flags if it is a descendant
of `pindex`. -/
theorem resetEntry_cleared (ht : BlockTree s.entry s.blockman.Holds) (hp : s.blockman.Holds p)
    (h : s.resetEntry pindex tip p = .ok s') :
    Cleared (IsAncestor s.entry pindex) s s' ∧
      (IsAncestor s.entry pindex p → (s'.entry p).nStatus.failed = false) := by
  rw [CChainState.resetEntry] at h
  split at h
  next hvalid =>
    cases h
    refine ⟨.of_sameBlocks (.refl s), fun _ => ?_⟩
    rw [BlockStatus.isValid, Bool.and_eq_true, Bool.not_eq_true'] at hvalid
    exact hvalid.1
  next hvalid =>
    obtain ⟨r, hr, hiff⟩ := ht.getAncestor_iff (f := pindex) hp
    rw [hr, ok_bind] at h
    split at h
    next hfound =>
      cases h
      have hrevive := SameBlocks.reviveEntry s tip p
      refine ⟨(Cleared.clearFailed s (hiff.mp hfound)).trans (.of_sameBlocks hrevive), fun _ => ?_⟩
      rw [hrevive.entry]
      exact Cleared.clearFailed_self s p
    next hother =>
      cases h
      exact ⟨.of_sameBlocks (.refl s), fun hanc => absurd (hiff.mpr hanc) hother⟩

theorem resetEntries_cleared (ht : BlockTree s.entry s.blockman.Holds) {l : List BlockPtr}
    (hl : ∀ p ∈ l, s.blockman.Holds p)
    (h : l.foldlM (CChainState.resetEntry pindex tip) s = .ok s') :
    Cleared (IsAncestor s.entry pindex) s s' ∧
      ∀ p ∈ l, IsAncestor s.entry pindex p → (s'.entry p).nStatus.failed = false := by
  induction l generalizing s with
  | nil =>
    rw [foldlM_nil_eq_ok] at h
    subst h
    exact ⟨.of_sameBlocks (.refl s), by simp⟩
  | cons p rest ih =>
    obtain ⟨s₁, hstep, hrest⟩ := foldlM_cons_eq_ok.mp h
    obtain ⟨hcleared, hdone⟩ := resetEntry_cleared ht (hl p List.mem_cons_self) hstep
    have hholds := hcleared.holds_eq
    have hanc : IsAncestor s₁.entry pindex = IsAncestor s.entry pindex := funext fun q =>
      propext (hcleared.isAncestor_iff pindex q)
    obtain ⟨hcleared', hdone'⟩ := ih (by rw [hholds]; exact hcleared.tree ht)
      (by rw [hholds]; exact fun q hq => hl q (List.mem_cons_of_mem p hq)) hrest
    rw [hanc] at hcleared' hdone'
    refine ⟨hcleared.trans hcleared', fun q hq hqanc => ?_⟩
    rcases List.mem_cons.mp hq with rfl | hq
    · exact hcleared'.unflagged (hdone hqanc)
    · exact hdone' q hq hqanc

theorem clearAncestors_cleared (ht : BlockTree s.entry s.blockman.Holds)
    (hp : s.blockman.Holds p) {fuel : Nat} (hfuel : (s.entry p).nHeight < fuel) :
    Cleared (fun q => IsAncestor s.entry q p) s (s.clearAncestors fuel (some p)) ∧
      ∀ q, IsAncestor s.entry q p →
        ((s.clearAncestors fuel (some p)).entry q).nStatus.failed = false := by
  induction fuel generalizing s p with
  | zero => omega
  | succ fuel ih =>
    rw [CChainState.clearAncestors]
    let s₁ := if (s.entry p).nStatus.failed then s.clearFailed p else s
    have hstep : Cleared (fun q => IsAncestor s.entry q p) s s₁ ∧
        (s₁.entry p).nStatus.failed = false := by
      by_cases hflag : (s.entry p).nStatus.failed = true
      · have heq : s₁ = s.clearFailed p := if_pos hflag
        rw [heq]
        exact ⟨.clearFailed s (.refl p), Cleared.clearFailed_self s p⟩
      · have heq : s₁ = s := if_neg hflag
        rw [heq]
        exact ⟨.of_sameBlocks (.refl s), Bool.not_eq_true _ ▸ hflag⟩
    obtain ⟨hcleared, hdone⟩ := hstep
    cases hprev : (s.entry p).pprev with
    | none =>
      have hend : s₁.clearAncestors fuel none = s₁ := by
        cases fuel <;> rfl
      change Cleared _ s (s₁.clearAncestors fuel none) ∧
        ∀ q, _ → ((s₁.clearAncestors fuel none).entry q).nStatus.failed = false
      rw [hend]
      refine ⟨hcleared, fun q hq => ?_⟩
      cases hq with
      | refl => exact hdone
      | step hparent _ =>
        rw [hprev] at hparent
        cases hparent
    | some parent =>
      change Cleared _ s (s₁.clearAncestors fuel (some parent)) ∧
        ∀ q, _ → ((s₁.clearAncestors fuel (some parent)).entry q).nStatus.failed = false
      have hholds := hcleared.holds_eq
      have hsucc := ht.graded.succ hp hprev
      have hheight := hcleared.nHeight parent
      obtain ⟨hcleared', hdone'⟩ := ih (s := s₁) (p := parent)
        (by rw [hholds]; exact hcleared.tree ht)
        (by rw [hholds]; exact ht.graded.mem hp hprev) (by omega)
      simp only [hcleared.isAncestor_iff] at hcleared' hdone'
      refine ⟨hcleared.trans (hcleared'.mono fun q hq => .step hprev hq), fun q hq => ?_⟩
      rcases (Ancestor.iff_of_parent hprev).mp hq with rfl | hq
      · exact hcleared'.unflagged hdone
      · exact hdone' q hq

/-- The entry is an ancestor or a descendant of `pindex`, or `pindex` itself. -/
def Related (entry : BlockPtr → CBlockIndex) (pindex q : BlockPtr) : Prop :=
  IsAncestor entry pindex q ∨ IsAncestor entry q pindex

/-- `ResetBlockFailureFlags` clears exactly the ancestors and descendants of the block. -/
theorem resetBlockFailureFlags_spec {s s' : NodeState}
    (ht : BlockTree s.entry s.blockman.Holds) (hlisted : ∀ {p}, p ∈ s.blocks ↔ s.blockman.Holds p)
    (hp : s.blockman.Holds pindex) (h : resetBlockFailureFlags pindex s = .ok s') :
    s' = s.withChain s'.toCChainState ∧
      Cleared (Related s.entry pindex) s.toCChainState s'.toCChainState ∧
      ∀ q, s.blockman.Holds q → Related s.entry pindex q →
        (s'.entry q).nStatus.failed = false := by
  unfold resetBlockFailureFlags at h
  split at h
  next tip htip =>
    rw [bind_eq_ok] at h
    obtain ⟨c, hfold, h⟩ := h
    cases h
    obtain ⟨hcleared, hdone⟩ := resetEntries_cleared ht (fun p hp => hlisted.mp hp) hfold
    have hholds := hcleared.holds_eq
    obtain ⟨hcleared', hdone'⟩ := clearAncestors_cleared (by rw [hholds]; exact hcleared.tree ht)
      (by rw [hholds]; exact hp) (show (c.entry pindex).nHeight < (s.entry pindex).nHeight + 1 by
        rw [hcleared.nHeight]
        exact Nat.lt_succ_self _)
    simp only [hcleared.isAncestor_iff] at hcleared' hdone'
    refine ⟨rfl, (hcleared.mono fun q hq => .inl hq).trans (hcleared'.mono fun q hq => .inr hq),
      fun q hq hrelated => ?_⟩
    rcases hrelated with hdesc | hanc
    · exact hcleared'.unflagged (hdone q (hlisted.mpr hq) hdesc)
    · exact hdone' q hanc
  · cases h

end ResetBlockFailureFlags

end Verium
