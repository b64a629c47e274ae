import Mathlib.Data.List.TakeWhile
import Mathlib.Order.WellFoundedSet
import Verium.Chain.State

/-!
What holds in every state that `ActivateBestChain` passes through. Relative to the state it
started in, only failure flags are added, and never to a block of a valid chain; the active
chain leads to a tip all of whose blocks are valid; and every usable entry that is no worse
than the best valid one is still a candidate.
-/

namespace Verium

open Lib

/-- The states have the same entries, up to their status. -/
structure OnlyStatus (s s' : CChainState) : Prop where
  blockIndex : s'.blockman.blockIndex = s.blockman.blockIndex
  entry : ∀ p, s'.entry p = { s.entry p with nStatus := (s'.entry p).nStatus }

namespace OnlyStatus

variable {s s' s'' : CChainState}

theorem of_blockman (h : s'.blockman = s.blockman) : OnlyStatus s s' := by
  have hentry : s'.entry = s.entry := by rw [CChainState.entry, h, CChainState.entry]
  exact ⟨by rw [h], fun p => by rw [hentry]⟩

theorem updateStatus (s : CChainState) (p : BlockPtr) (f : BlockStatus → BlockStatus) :
    OnlyStatus s (s.updateStatus p f) := by
  refine ⟨rfl, fun q => ?_⟩
  rw [CChainState.updateStatus_entry]
  split
  next heq => rw [heq]
  next => rfl

theorem trans (h : OnlyStatus s s') (h' : OnlyStatus s' s'') : OnlyStatus s s'' where
  blockIndex := h'.blockIndex.trans h.blockIndex
  entry p := by
    rw [h'.entry p, h.entry p]

variable (h : OnlyStatus s s')

include h

theorem pprev (p : BlockPtr) : (s'.entry p).pprev = (s.entry p).pprev := by
  rw [h.entry p]

theorem nHeight (p : BlockPtr) : (s'.entry p).nHeight = (s.entry p).nHeight := by
  rw [h.entry p]

theorem hashBlock (p : BlockPtr) : (s'.entry p).hashBlock = (s.entry p).hashBlock := by
  rw [h.entry p]

theorem haveTxsDownloaded (p : BlockPtr) :
    (s'.entry p).haveTxsDownloaded = (s.entry p).haveTxsDownloaded := by
  rw [h.entry p]
  rfl

theorem workLess_eq : workLess s'.entry = workLess s.entry := by
  funext p q
  rw [workLess, h.entry p, h.entry q]
  rfl

theorem holds_eq : s'.blockman.Holds = s.blockman.Holds :=
  BlockManager.holds_congr h.blockIndex h.hashBlock

theorem holds_iff (p : BlockPtr) : s'.blockman.Holds p ↔ s.blockman.Holds p := by
  rw [h.holds_eq]

theorem isAncestor_iff (a p : BlockPtr) : IsAncestor s'.entry a p ↔ IsAncestor s.entry a p := by
  simp only [IsAncestor, h.pprev]

theorem tree {S : BlockPtr → Prop} (ht : BlockTree s.entry S) : BlockTree s'.entry S where
  graded := by
    simp only [h.pprev, h.nHeight]
    exact ht.graded
  skip := by
    intro p q hp hskip
    rw [h.entry p] at hskip
    rw [h.isAncestor_iff, h.nHeight, h.nHeight]
    exact ht.skip hp hskip

theorem isChainTo_iff {vChain : CChain} {t : BlockPtr} :
    IsChainTo s'.entry vChain t ↔ IsChainTo s.entry vChain t := by
  constructor
  · rintro ⟨hlen, hget⟩
    simp only [h.isAncestor_iff, h.nHeight] at hlen hget
    exact ⟨hlen, hget⟩
  · rintro ⟨hlen, hget⟩
    refine ⟨?_, ?_⟩
    · rw [h.nHeight]
      exact hlen
    · simp only [h.isAncestor_iff, h.nHeight]
      exact hget

end OnlyStatus

/-- The states have the same block tree: they differ at most in failure flags, and those of
the first are in the second as well. -/
structure SameTree (s s' : CChainState) : Prop extends OnlyStatus s s' where
  haveData : ∀ p, (s'.entry p).nStatus.haveData = (s.entry p).nStatus.haveData
  failedValid : ∀ p, (s.entry p).nStatus.failedValid = true →
    (s'.entry p).nStatus.failedValid = true
  failed : ∀ p, (s.entry p).nStatus.failed = true → (s'.entry p).nStatus.failed = true

namespace SameTree

variable {s s' s'' : CChainState}

theorem of_entry (hentry : s'.entry = s.entry)
    (hindex : s'.blockman.blockIndex = s.blockman.blockIndex) : SameTree s s' := by
  refine ⟨⟨hindex, fun p => ?_⟩, fun p => ?_, fun p => ?_, fun p => ?_⟩
  · rw [hentry]
  · rw [hentry]
  · rw [hentry]
    exact id
  · rw [hentry]
    exact id

theorem of_blockman (h : s'.blockman = s.blockman) : SameTree s s' :=
  .of_entry (by rw [CChainState.entry, h, CChainState.entry]) (by rw [h])

theorem refl (s : CChainState) : SameTree s s :=
  .of_blockman rfl

theorem trans (h : SameTree s s') (h' : SameTree s' s'') : SameTree s s'' where
  toOnlyStatus := h.toOnlyStatus.trans h'.toOnlyStatus
  haveData p := (h'.haveData p).trans (h.haveData p)
  failedValid p hp := h'.failedValid p (h.failedValid p hp)
  failed p hp := h'.failed p (h.failed p hp)

theorem unflagged_of_unflagged (h : SameTree s s') {p : BlockPtr}
    (hp : (s'.entry p).nStatus.failed = false) : (s.entry p).nStatus.failed = false := by
  rw [Bool.eq_false_iff] at hp ⊢
  exact fun hflag => hp (h.failed p hflag)

end SameTree

/-- The same tree with the same failure flags. -/
def SameFlags (s s' : CChainState) : Prop :=
  SameTree s s' ∧ SameTree s' s

namespace SameFlags

variable {s s' s'' : CChainState}

theorem of_blockman (h : s'.blockman = s.blockman) : SameFlags s s' :=
  ⟨.of_blockman h, .of_blockman h.symm⟩

theorem trans (h : SameFlags s s') (h' : SameFlags s' s'') : SameFlags s s'' :=
  ⟨h.1.trans h'.1, h'.2.trans h.2⟩

theorem failedValid_eq (h : SameFlags s s') (p : BlockPtr) :
    (s'.entry p).nStatus.failedValid = (s.entry p).nStatus.failedValid := by
  rw [Bool.eq_iff_iff]
  exact ⟨h.2.failedValid p, h.1.failedValid p⟩

end SameFlags

/-- The entry and all its ancestors have data and carry no failure flag. -/
def Usable (s : CChainState) (p : BlockPtr) : Prop :=
  ∀ q, IsAncestor s.entry q p →
    (s.entry q).nStatus.haveData = true ∧ (s.entry q).nStatus.failed = false

/-- The entry and all its ancestors have data, carry no failure flag and have a valid
verdict. -/
def ValidChain (verdict : BlockPtr → Verdict) (s : CChainState) (p : BlockPtr) : Prop :=
  Usable s p ∧ ∀ q, IsAncestor s.entry q p → verdict q = .valid

section Usable

variable {verdict : BlockPtr → Verdict} {s s' : CChainState} {p q : BlockPtr}

theorem SameTree.usable_iff (h : SameTree s s') : Usable s' p ↔
    ∀ q, IsAncestor s.entry q p →
      (s.entry q).nStatus.haveData = true ∧ (s'.entry q).nStatus.failed = false := by
  simp only [Usable, h.isAncestor_iff, h.haveData]

theorem SameTree.usable_of_usable (h : SameTree s s') (hp : Usable s' p) : Usable s p := by
  intro q hq
  obtain ⟨hdata, hfailed⟩ := h.usable_iff.mp hp q hq
  exact ⟨hdata, h.unflagged_of_unflagged hfailed⟩

theorem Usable.of_sameFlags (hp : Usable s p) (h : SameFlags s s') : Usable s' p :=
  h.2.usable_of_usable hp

theorem ValidChain.of_ancestor (hp : ValidChain verdict s p) (hq : IsAncestor s.entry q p) :
    ValidChain verdict s q :=
  ⟨fun r hr => hp.1 r (hr.trans hq), fun r hr => hp.2 r (hr.trans hq)⟩

theorem ValidChain.extend (hq : ValidChain verdict s q) (hprev : (s.entry p).pprev = some q)
    (hdata : (s.entry p).nStatus.haveData = true) (hfailed : (s.entry p).nStatus.failed = false)
    (hvalid : verdict p = .valid) : ValidChain verdict s p := by
  refine ⟨fun r hr => ?_, fun r hr => ?_⟩
  · rcases (Ancestor.iff_of_parent hprev).mp hr with rfl | hrq
    · exact ⟨hdata, hfailed⟩
    · exact hq.1 r hrq
  · rcases (Ancestor.iff_of_parent hprev).mp hr with rfl | hrq
    · exact hvalid
    · exact hq.2 r hrq

end Usable

/-- The greatest entry of the index, in the order of the work comparator, that ends a valid
chain. -/
structure IsBest (verdict : BlockPtr → Verdict) (s : CChainState) (best : BlockPtr) : Prop where
  holds : s.blockman.Holds best
  valid : ValidChain verdict s best
  greatest : ∀ p, s.blockman.Holds p → ValidChain verdict s p → workLess s.entry best p = false

/-- Among finitely many entries there is a best one, if any ends a valid chain. -/
theorem exists_isBest {verdict : BlockPtr → Verdict} {s : CChainState} {t : BlockPtr}
    (hfinite : {p | s.blockman.Holds p}.Finite) (ht : s.blockman.Holds t)
    (hvalid : ValidChain verdict s t) : ∃ best, IsBest verdict s best := by
  let better : BlockPtr → BlockPtr → Prop := fun p q => workLess s.entry q p = true
  have hstrict : IsStrictOrder BlockPtr better :=
    { irrefl := fun p hp => by
        have hself := workLess_irrefl s.entry p
        rw [show workLess s.entry p p = true from hp] at hself
        cases hself
      trans := fun p q r hpq hqr => workLess_trans hqr hpq }
  have hfin : {p | s.blockman.Holds p ∧ ValidChain verdict s p}.Finite :=
    hfinite.subset fun p hp => hp.1
  obtain ⟨best, hbest, hmax⟩ :=
    (hfin.wellFoundedOn (r := better)).has_min Set.univ ⟨⟨t, ht, hvalid⟩, trivial⟩
  refine ⟨best.1, best.2.1, best.2.2, fun p hp hpvalid => ?_⟩
  rw [Bool.eq_false_iff]
  exact hmax ⟨p, hp, hpvalid⟩ trivial

/-- A consistent block index of a node that has never pruned, with active tip `t`: what
`CheckBlockIndex` asserts of the entries, the active chain and the candidates, and that the
blocks of the active chain are valid. -/
structure Consistent (verdict : BlockPtr → Verdict) (s : CChainState) (t : BlockPtr) : Prop where
  tree : BlockTree s.entry s.blockman.Holds
  finite : {p | s.blockman.Holds p}.Finite
  /-- All entries descend from one genesis entry. -/
  genesis : ∃ genesis, ∀ p, s.blockman.Holds p → IsAncestor s.entry genesis p
  holds : s.blockman.Holds t
  chain : IsChainTo s.entry s.chain t
  coins : s.coinsBestBlock = (s.entry t).hashBlock
  valid : ValidChain verdict s t
  sorted : s.setBlockIndexCandidates.Pairwise fun p q => workLess s.entry p q = true
  /-- Candidates have all their data, and so have their ancestors. -/
  data : ∀ p ∈ s.setBlockIndexCandidates, s.blockman.Holds p ∧ ∀ q, IsAncestor s.entry q p →
    (s.entry q).haveTxsDownloaded = true ∧ (s.entry q).nStatus.haveData = true
  /-- A usable entry no worse than the tip is a candidate. -/
  complete : ∀ p, s.blockman.Holds p → Usable s p → workLess s.entry p t = false →
    p ∈ s.setBlockIndexCandidates

/-- The state `s` with tip `t` is one that `ActivateBestChain` can pass through when it is
started in the state `base`, whose best entry is `best`. -/
structure Reached (verdict : BlockPtr → Verdict) (base : CChainState) (best : BlockPtr)
    (s : CChainState) (t : BlockPtr) : Prop where
  same : SameTree base s
  holds : base.blockman.Holds t
  chain : IsChainTo base.entry s.chain t
  coins : s.coinsBestBlock = (base.entry t).hashBlock
  valid : ValidChain verdict base t
  unflagged : ∀ p, ValidChain verdict base p → (s.entry p).nStatus.failed = false
  sorted : s.setBlockIndexCandidates.Pairwise fun p q => workLess base.entry p q = true
  data : ∀ p ∈ s.setBlockIndexCandidates, base.blockman.Holds p ∧
    ∀ q, IsAncestor base.entry q p →
      (base.entry q).haveTxsDownloaded = true ∧ (base.entry q).nStatus.haveData = true
  complete : ∀ p, base.blockman.Holds p → Usable s p → workLess base.entry p best = false →
    p ∈ s.setBlockIndexCandidates
  /-- A candidate is given up only when it is marked or worse than the best entry. -/
  kept : ∀ p ∈ base.setBlockIndexCandidates, (s.entry p).nStatus.failed = false →
    workLess base.entry p best = false → p ∈ s.setBlockIndexCandidates
  /-- Blocks that have been checked since and were found invalid are marked. -/
  checked : ∃ since, s.blockChecked = since ++ base.blockChecked ∧
    ∀ p ∈ since, verdict p = .valid ∨ (s.entry p).nStatus.failedValid = true

section Start

variable {verdict : BlockPtr → Verdict} {base : CChainState} {best t : BlockPtr}

theorem Consistent.reached (hc : Consistent verdict base t) (hbest : IsBest verdict base best) :
    Reached verdict base best base t where
  same := .refl base
  holds := hc.holds
  chain := hc.chain
  coins := hc.coins
  valid := hc.valid
  unflagged p hp := (hp.1 p (.refl p)).2
  sorted := hc.sorted
  data := hc.data
  complete p hp husable hle :=
    hc.complete p hp husable (not_workLess_trans hle (hbest.greatest t hc.holds hc.valid))
  kept p hp _ _ := hp
  checked := ⟨[], rfl, by simp⟩

end Start

section Operations

variable {t p : BlockPtr}

/-- A change of status that only adds failure flags. -/
structure RaisesFlags (f : BlockStatus → BlockStatus) : Prop where
  haveData : ∀ status, (f status).haveData = status.haveData
  failedValid : ∀ status, status.failedValid = true → (f status).failedValid = true
  failed : ∀ status, status.failed = true → (f status).failed = true

theorem raisesFlags_failedValid :
    RaisesFlags fun status => { status with failedValid := true } :=
  ⟨fun _ => rfl, fun _ _ => rfl, fun _ _ => rfl⟩

theorem raisesFlags_failedChild :
    RaisesFlags fun status => { status with failedChild := true } :=
  ⟨fun _ => rfl, fun _ h => h, fun _ _ => by simp [BlockStatus.failed]⟩

theorem sameTree_updateStatus {f : BlockStatus → BlockStatus} (hf : RaisesFlags f)
    (s : CChainState) (p : BlockPtr) : SameTree s (s.updateStatus p f) := by
  refine ⟨.updateStatus s p f, fun q => ?_, fun q => ?_, fun q => ?_⟩
  · rw [CChainState.updateStatus_nStatus]
    split
    · exact hf.haveData _
    · rfl
  · rw [CChainState.updateStatus_nStatus]
    split
    · exact hf.failedValid _
    · exact id
  · rw [CChainState.updateStatus_nStatus]
    split
    · exact hf.failed _
    · exact id

theorem sameFlags_updateStatus {f : BlockStatus → BlockStatus}
    (hf : ∀ status, (f status).haveData = status.haveData ∧
      (f status).failedValid = status.failedValid ∧ (f status).failedChild = status.failedChild)
    (s : CChainState) (p : BlockPtr) : SameFlags s (s.updateStatus p f) := by
  have hfailed : ∀ status, (f status).failed = status.failed := by
    intro status
    rw [BlockStatus.failed, (hf status).2.1, (hf status).2.2, BlockStatus.failed]
  have hstep : SameTree s (s.updateStatus p f) := by
    apply sameTree_updateStatus
    refine ⟨fun status => (hf status).1, fun status => ?_, fun status => ?_⟩
    · rw [(hf status).2.1]
      exact id
    · rw [hfailed]
      exact id
  refine ⟨hstep, ⟨rfl, fun q => by rw [hstep.entry q]⟩, fun q => (hstep.haveData q).symm,
    fun q => ?_, fun q => ?_⟩
  · rw [CChainState.updateStatus_nStatus]
    split
    · rw [(hf _).2.1]
      exact id
    · exact id
  · rw [CChainState.updateStatus_nStatus]
    split
    · rw [hfailed]
      exact id
    · exact id

theorem sameFlags_raiseScripts (s : CChainState) (p : BlockPtr) :
    SameFlags s (s.raiseScripts p) := by
  unfold CChainState.raiseScripts
  split
  · exact .of_blockman rfl
  · exact sameFlags_updateStatus (fun status => by
      cases status
      simp only [BlockStatus.raiseValidity]
      split
      · exact ⟨rfl, rfl, rfl⟩
      · split <;> exact ⟨rfl, rfl, rfl⟩) s p

theorem raiseBestInvalid_eq (s : CChainState) (pindexNew : BlockPtr) :
    ∃ invalid, s.raiseBestInvalid pindexNew = { s with pindexBestInvalid := invalid } := by
  unfold CChainState.raiseBestInvalid
  split
  · exact ⟨_, rfl⟩
  · split
    · exact ⟨_, rfl⟩
    · exact ⟨s.pindexBestInvalid, rfl⟩

/-- What `PruneBlockIndexCandidates` leaves of a sorted list is no worse than the tip. -/
theorem not_workLess_of_mem_dropWhile {entry : BlockPtr → CBlockIndex} {candidates : List BlockPtr}
    (hsorted : candidates.Pairwise fun p q => workLess entry p q = true) :
    ∀ q ∈ candidates.dropWhile (fun p => workLess entry p t), workLess entry q t = false := by
  induction candidates with
  | nil => simp
  | cons p rest ih =>
    rw [List.pairwise_cons] at hsorted
    rw [List.dropWhile_cons]
    cases hp : workLess entry p t with
    | true => exact ih hsorted.2
    | false =>
      intro q hq
      rcases List.mem_cons.mp hq with rfl | hq
      · exact hp
      · rw [Bool.eq_false_iff]
        intro hless
        rw [workLess_trans (hsorted.1 q hq) hless] at hp
        cases hp

/-- `DisconnectTip` where the coins follow the chain. -/
theorem CChainState.disconnectTip_eq {s : CChainState} (htip : s.tip = some t)
    (hcoins : s.coinsBestBlock = (s.entry t).hashBlock) :
    s.disconnectTip =
      match (s.entry t).pprev with
      | some pprev => .ok (s.moveTip pprev)
      | none => .error (.exception "null pointer") := by
  rw [CChainState.disconnectTip, htip]
  dsimp only
  rw [assertThat_of hcoins, ok_bind]
  cases (s.entry t).pprev with
  | none => rfl
  | some pprev => rfl

end Operations

namespace Reached

variable {verdict : BlockPtr → Verdict} {base s : CChainState} {best t p : BlockPtr}
  (h : Reached verdict base best s t)

include h

theorem tip_eq : s.tip = some t :=
  h.chain.tip_eq

theorem usable (hp : ValidChain verdict base p) : Usable s p := by
  rw [h.same.usable_iff]
  intro q hq
  exact ⟨(hp.1 q hq).1, h.unflagged q (hp.of_ancestor hq)⟩

theorem best_mem (hbest : IsBest verdict base best) : best ∈ s.setBlockIndexCandidates :=
  h.complete best hbest.holds (h.usable hbest.valid) (workLess_irrefl _ _)

/-- The index may change as long as no valid chain is flagged. -/
theorem withBlockman {blockman : BlockManager} (hstep : SameTree s { s with blockman })
    (hunflagged : ∀ q, ValidChain verdict base q → (blockman.entry q).nStatus.failed = false) :
    Reached verdict base best { s with blockman } t :=
  { h with
    same := h.same.trans hstep
    unflagged := hunflagged
    complete := fun q hholds husable hle =>
      h.complete q hholds (hstep.usable_of_usable husable) hle
    kept := fun q hq hfailed hle => h.kept q hq (hstep.unflagged_of_unflagged hfailed) hle
    checked := by
      obtain ⟨since, heq, hdone⟩ := h.checked
      exact ⟨since, heq, fun q hq => (hdone q hq).imp_right (hstep.failedValid q)⟩ }

/-- Candidates may go that are flagged or worse than the best entry. -/
theorem withCandidates {l : List BlockPtr} (hsub : l.Sublist s.setBlockIndexCandidates)
    (hkeep : ∀ p ∈ s.setBlockIndexCandidates, (s.entry p).nStatus.failed = false →
      workLess base.entry p best = false → p ∈ l) :
    Reached verdict base best { s with setBlockIndexCandidates := l } t :=
  { h with
    same := h.same.trans (.of_blockman rfl)
    sorted := h.sorted.sublist hsub
    data := fun p hp => h.data p (hsub.subset hp)
    complete := fun p hholds husable hle =>
      hkeep p (h.complete p hholds husable hle) (husable p (.refl p)).2 hle
    kept := fun p hp hunflagged hle => hkeep p (h.kept p hp hunflagged hle) hunflagged hle }

theorem mark {f : BlockStatus → BlockStatus} (hf : RaisesFlags f)
    (hp : ¬ ValidChain verdict base p) : Reached verdict base best (s.updateStatus p f) t := by
  apply h.withBlockman (sameTree_updateStatus hf s p)
  intro q hq
  have hne : q ≠ p := by
    rintro rfl
    exact hp hq
  change (Function.update s.entry p _ q).nStatus.failed = false
  rw [Function.update_of_ne hne]
  exact h.unflagged q hq

theorem erase (hp : (s.entry p).nStatus.failed = true) :
    Reached verdict base best (s.eraseCandidate p) t := by
  apply h.withCandidates List.filter_sublist
  intro q hq hunflagged _
  have hne : q ≠ p := by
    rintro rfl
    exact Bool.false_ne_true (hunflagged.symm.trans hp)
  exact List.mem_filter.mpr ⟨hq, by simpa using hne⟩

theorem withBestInvalid (invalid : Option BlockPtr) :
    Reached verdict base best { s with pindexBestInvalid := invalid } t :=
  { h with same := h.same.trans (.of_blockman rfl) }

theorem invalidChainFound (pindexNew : BlockPtr) :
    ∃ s', s.invalidChainFound pindexNew = .ok s' ∧ s'.blockman = s.blockman ∧
      s'.setBlockIndexCandidates = s.setBlockIndexCandidates ∧
      Reached verdict base best s' t := by
  obtain ⟨invalid, heq⟩ := raiseBestInvalid_eq s pindexNew
  have htip : s.tip ≠ none := by
    rw [h.tip_eq]
    simp
  refine ⟨{ s with pindexBestInvalid := invalid }, ?_, rfl, rfl, h.withBestInvalid invalid⟩
  rw [CChainState.invalidChainFound, heq]
  rw [assertThat_of (show CChainState.tip { s with pindexBestInvalid := invalid } ≠ none
    from htip)]
  rfl

/-- A block with an invalid verdict ends up marked, and out of the candidates. -/
theorem invalidBlockFound {reason : ValidationInvalidReason} (hreason : reason ≠ .blockMutated)
    (hp : verdict p ≠ .valid) :
    ∃ s', s.invalidBlockFound p reason = .ok s' ∧ SameTree s s' ∧
      (s'.entry p).nStatus.failedValid = true ∧
      s'.setBlockIndexCandidates ⊆ s.setBlockIndexCandidates ∧
      Reached verdict base best s' t := by
  have hnot : ¬ ValidChain verdict base p := fun hvalid => hp (hvalid.2 p (.refl p))
  let marked := s.updateStatus p fun status => { status with failedValid := true }
  let listed := { marked with blockman :=
    { marked.blockman with failedBlocks := p :: marked.blockman.failedBlocks } }
  have hsame : SameTree s listed :=
    (sameTree_updateStatus raisesFlags_failedValid s p).trans (.of_entry rfl rfl)
  have hlisted : Reached verdict base best listed t :=
    h.withBlockman hsame (h.mark raisesFlags_failedValid hnot).unflagged
  have hentry : (listed.entry p).nStatus.failedValid = true := by
    change (Function.update s.entry p _ p).nStatus.failedValid = true
    rw [Function.update_self]
  have herased : Reached verdict base best (listed.eraseCandidate p) t := by
    apply hlisted.erase
    rw [BlockStatus.failed, hentry]
    rfl
  obtain ⟨s', hfound, hblockman, hcandidates, hreached⟩ := herased.invalidChainFound p
  refine ⟨s', ?_, hsame.trans (.of_blockman hblockman), ?_, ?_, hreached⟩
  · rw [CChainState.invalidBlockFound, if_neg hreason]
    exact hfound
  · rw [CChainState.entry, hblockman]
    exact hentry
  · rw [hcandidates]
    exact List.filter_subset_self _

/-- Pruning keeps every candidate that is no worse than the best entry. -/
theorem pruneBlockIndexCandidates (hbest : IsBest verdict base best) :
    ∃ s', s.pruneBlockIndexCandidates = .ok s' ∧ s'.blockman = s.blockman ∧
      (∀ q ∈ s'.setBlockIndexCandidates, workLess base.entry q t = false) ∧
      Reached verdict base best s' t := by
  have hkeep : ∀ p ∈ s.setBlockIndexCandidates, workLess base.entry p t = false →
      p ∈ s.setBlockIndexCandidates.dropWhile fun p => workLess s.entry p t := by
    intro p hp hle
    rw [← List.takeWhile_append_dropWhile (p := fun p => workLess s.entry p t)
      (l := s.setBlockIndexCandidates), List.mem_append] at hp
    rcases hp with hdropped | hkept
    · have hworse := List.mem_takeWhile_imp hdropped
      rw [h.same.workLess_eq, hle] at hworse
      cases hworse
    · exact hkept
  have htbest := hbest.greatest t h.holds h.valid
  have hne : (s.setBlockIndexCandidates.dropWhile fun p => workLess s.entry p t) ≠ [] :=
    List.ne_nil_of_mem (hkeep best (h.best_mem hbest) htbest)
  refine ⟨{ s with setBlockIndexCandidates :=
    s.setBlockIndexCandidates.dropWhile fun p => workLess s.entry p t }, ?_, rfl, ?_, ?_⟩
  · rw [CChainState.pruneBlockIndexCandidates, h.tip_eq]
    dsimp only
    rw [assertThat_of hne]
    rfl
  · rw [h.same.workLess_eq]
    exact not_workLess_of_mem_dropWhile h.sorted
  · apply h.withCandidates (List.dropWhile_sublist _)
    exact fun p hp _ hle => hkeep p hp (not_workLess_trans hle htbest)

theorem moveTip (ht : BlockTree base.entry base.blockman.Holds) (hholds : base.blockman.Holds p)
    (hvalid : ValidChain verdict base p) : Reached verdict base best (s.moveTip p) p := by
  have hsame := h.same
  have hchain := setTip_isChainTo (hsame.tree ht)
    (.inr ⟨t, h.holds, hsame.isChainTo_iff.mpr h.chain⟩) hholds
  exact { h with
    same := hsame.trans (.of_blockman rfl)
    holds := hholds
    chain := hsame.isChainTo_iff.mp hchain
    coins := hsame.hashBlock p
    valid := hvalid }

theorem report (hp : verdict p = .valid) : Reached verdict base best (s.report p) t := by
  obtain ⟨since, heq, hdone⟩ := h.checked
  refine { h with same := h.same.trans (.of_blockman rfl), checked := ⟨p :: since, ?_, ?_⟩ }
  · rw [CChainState.report, heq]
    rfl
  · intro q hq
    rcases List.mem_cons.mp hq with rfl | hq
    · exact .inl hp
    · exact hdone q hq

theorem disconnectTip (ht : BlockTree base.entry base.blockman.Holds)
    (hprev : (base.entry t).pprev = some p) :
    s.disconnectTip = .ok (s.moveTip p) ∧ Reached verdict base best (s.moveTip p) p := by
  have hvalid := h.valid.of_ancestor (.of_parent hprev)
  have hcoins : s.coinsBestBlock = (s.entry t).hashBlock := by
    rw [h.coins, h.same.hashBlock]
  refine ⟨?_, h.moveTip ht (ht.graded.mem h.holds hprev) hvalid⟩
  rw [CChainState.disconnectTip_eq h.tip_eq hcoins, h.same.pprev, hprev]

theorem raiseScripts (p : BlockPtr) : Reached verdict base best (s.raiseScripts p) t := by
  have hflags := sameFlags_raiseScripts s p
  have heq : s.raiseScripts p = { s with blockman := (s.raiseScripts p).blockman } := by
    unfold CChainState.raiseScripts
    split
    · rfl
    · rfl
  rw [heq] at hflags ⊢
  exact h.withBlockman hflags.1 fun q hq => hflags.2.unflagged_of_unflagged (h.unflagged q hq)

/-- On the next block `ConnectTip` gets as far as acting on the verdict. -/
theorem connectTip_eq (hprev : (base.entry p).pprev = some t) :
    s.connectTip verdict p =
      match verdict p with
      | .valid => .ok (.valid, ((s.raiseScripts p).report p).moveTip p)
      | .invalid reason => do
          let s ← (s.report p).invalidBlockFound p reason
          return (.invalid reason, s)
      | .error => .ok (.error, s.report p) := by
  have htip : (s.entry p).pprev = s.tip := by
    rw [h.tip_eq, h.same.pprev, hprev]
  have hhash : ((s.entry p).pprev.map fun q => (s.entry q).hashBlock).getD 0 =
      s.coinsBestBlock := by
    rw [h.same.pprev, hprev, h.coins, ← h.same.hashBlock]
    rfl
  rw [CChainState.connectTip, assertThat_of htip, ok_bind]
  dsimp only
  rw [assertThat_of hhash, ok_bind]
  rfl

theorem connectTip_valid (ht : BlockTree base.entry base.blockman.Holds)
    (hholds : base.blockman.Holds p) (hprev : (base.entry p).pprev = some t)
    (hdata : (base.entry p).nStatus.haveData = true) (hfailed : (s.entry p).nStatus.failed = false)
    (hverdict : verdict p = .valid) :
    s.connectTip verdict p = .ok (.valid, ((s.raiseScripts p).report p).moveTip p) ∧
      SameFlags s (((s.raiseScripts p).report p).moveTip p) ∧
      Reached verdict base best (((s.raiseScripts p).report p).moveTip p) p := by
  have hunflagged := h.same.unflagged_of_unflagged hfailed
  have hflags : SameFlags (s.raiseScripts p) (((s.raiseScripts p).report p).moveTip p) :=
    .of_blockman rfl
  refine ⟨?_, (sameFlags_raiseScripts s p).trans hflags, ?_⟩
  · rw [h.connectTip_eq hprev, hverdict]
  · exact ((h.raiseScripts p).report hverdict).moveTip ht hholds
      (h.valid.extend hprev hdata hunflagged hverdict)

/-- The reports so far can be left out of the account. -/
theorem withReports (reports : List BlockPtr) :
    Reached verdict { base with blockChecked := reports } best
      { s with blockChecked := reports } t := by
  have hbase : SameTree { base with blockChecked := reports } base := .of_blockman rfl
  exact { h with
    same := hbase.trans (h.same.trans (.of_blockman rfl))
    checked := ⟨[], rfl, by simp⟩ }

/-- A next block with an invalid verdict is marked, and the tip stays. -/
theorem connectTip_invalid (hprev : (base.entry p).pprev = some t)
    {reason : ValidationInvalidReason} (hverdict : verdict p = .invalid reason)
    (hreason : reason ≠ .blockMutated) :
    ∃ s', s.connectTip verdict p = .ok (.invalid reason, s') ∧ SameTree s s' ∧
      (s'.entry p).nStatus.failedValid = true ∧
      s'.setBlockIndexCandidates ⊆ s.setBlockIndexCandidates ∧
      Reached verdict base best s' t := by
  have hbad : verdict p ≠ .valid := by
    rw [hverdict]
    simp
  -- the report comes before the mark, so it is left out of the account until then
  obtain ⟨s', hfound, hsame, hmarked, hsubset, hreached⟩ :=
    (h.withReports (p :: s.blockChecked)).invalidBlockFound hreason hbad
  have hstep : SameTree s s' :=
    (show SameTree s (s.report p) from .of_blockman rfl).trans hsame
  refine ⟨s', ?_, hstep, hmarked, hsubset,
    { hreached with same := h.same.trans hstep, checked := ?_ }⟩
  · rw [h.connectTip_eq hprev, hverdict]
    dsimp only
    rw [show s.report p = { s with blockChecked := p :: s.blockChecked } from rfl, hfound]
    rfl
  · obtain ⟨since, heq, hdone⟩ := h.checked
    obtain ⟨late, hlate, hlateDone⟩ := hreached.checked
    refine ⟨late ++ p :: since, ?_, ?_⟩
    · rw [hlate, heq, List.append_assoc, List.cons_append]
    · intro q hq
      rcases List.mem_append.mp hq with hq | hq
      · exact hlateDone q hq
      · rcases List.mem_cons.mp hq with rfl | hq
        · exact .inr hmarked
        · exact (hdone q hq).imp_right (hstep.failedValid q)

end Reached

end Verium
