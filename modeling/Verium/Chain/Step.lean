import Verium.Chain.Reached

/-!
`ActivateBestChainStep`: back to the fork, then forward towards the target in batches. The
step ends at the target, at a better tip on the way to it, or at a block with an invalid
verdict, which it marks.
-/

namespace Verium

open Lib

variable {verdict : BlockPtr → Verdict} {base s : CChainState} {best t p : BlockPtr}

/-- No block of the index has a verdict that is about the node or about a mutated copy. -/
def SettledVerdicts (verdict : BlockPtr → Verdict) (s : CChainState) : Prop :=
  ∀ p, s.blockman.Holds p → verdict p = .valid ∨
    ∃ reason, reason ≠ .blockMutated ∧ verdict p = .invalid reason

/-- Some block with an invalid verdict that was not marked now is. -/
def Marks (verdict : BlockPtr → Verdict) (base s s' : CChainState) : Prop :=
  SameTree s s' ∧ ∃ p, base.blockman.Holds p ∧ verdict p ≠ .valid ∧
    (s.entry p).nStatus.failedValid = false ∧ (s'.entry p).nStatus.failedValid = true

/-- How an attempt to get from tip `t` to the descendant `target` may end. -/
def Towards (verdict : BlockPtr → Verdict) (base : CChainState) (target : BlockPtr)
    (s : CChainState) (t : BlockPtr) (ended : CChainState.ConnectEnd) (s' : CChainState)
    (t' : BlockPtr) : Prop :=
  match ended with
  | .exhausted => SameFlags s s' ∧ t' = target
  | .better => SameFlags s s' ∧ IsAncestor base.entry t' target ∧
      (base.entry t).nHeight < (base.entry t').nHeight
  | .invalidFound => Marks verdict base s s'
  | .systemError => False

/-- The candidates of the start are no worse than its tip, and work grows along the tree. -/
def StartsPruned (base : CChainState) : Prop :=
  (∀ p q, base.blockman.Holds p → (base.entry p).pprev = some q →
    workLess base.entry q p = true) ∧
  ∀ tip, base.tip = some tip → ∀ q ∈ base.setBlockIndexCandidates,
    workLess base.entry q tip = false

/-- A state between the steps: the candidates have been pruned to the tip. -/
structure Settled (verdict : BlockPtr → Verdict) (base : CChainState) (best : BlockPtr)
    (s : CChainState) (t : BlockPtr) : Prop extends Reached verdict base best s t where
  pruned : StartsPruned base → ∀ q ∈ s.setBlockIndexCandidates, workLess base.entry q t = false

theorem Settled.of_subset {s' : CChainState} (h : Settled verdict base best s t)
    (h' : Reached verdict base best s' t)
    (hsub : s'.setBlockIndexCandidates ⊆ s.setBlockIndexCandidates) :
    Settled verdict base best s' t :=
  ⟨h', fun hstart q hq => h.pruned hstart q (hsub hq)⟩

/-- The parent of the tip is worse than the tip, and so than every candidate. -/
theorem Settled.disconnectTip (h : Settled verdict base best s t)
    (ht : BlockTree base.entry base.blockman.Holds) (hprev : (base.entry t).pprev = some p) :
    s.disconnectTip = .ok (s.moveTip p) ∧ Settled verdict base best (s.moveTip p) p := by
  obtain ⟨hdisconnect, hreached⟩ := h.toReached.disconnectTip ht hprev
  refine ⟨hdisconnect, hreached, fun hstart q hq => ?_⟩
  have hparent := hstart.1 t p h.holds hprev
  rw [Bool.eq_false_iff]
  intro hless
  have hcandidate := h.pruned hstart q hq
  rw [workLess_trans hless hparent] at hcandidate
  cases hcandidate

theorem Settled.disconnectTo (h : Settled verdict base best s t)
    (ht : BlockTree base.entry base.blockman.Holds) {fork : BlockPtr}
    (hfork : IsAncestor base.entry fork t) {fuel : Nat}
    (hfuel : (base.entry t).nHeight - (base.entry fork).nHeight < fuel) :
    ∃ s', CChainState.disconnectTo (some fork) fuel s = .ok s' ∧ s'.blockman = s.blockman ∧
      Settled verdict base best s' fork := by
  induction fuel generalizing s t with
  | zero => omega
  | succ fuel ih =>
    rw [CChainState.disconnectTo, h.tip_eq]
    by_cases heq : t = fork
    · subst heq
      exact ⟨s, if_pos (.inr rfl), rfl, h⟩
    · have hmore : ¬ (some t = none ∨ some t = some fork) := by
        simp [heq]
      obtain ⟨q, hprev, hforkq⟩ := hfork.parent_of_ne (Ne.symm heq)
      obtain ⟨hdisconnect, hreached⟩ := h.disconnectTip ht hprev
      have hsucc := ht.graded.succ h.holds hprev
      have hle := ht.graded.height_le (ht.graded.mem h.holds hprev) hforkq
      obtain ⟨s', hloop, hblockman, hfinal⟩ := ih hreached hforkq (by omega)
      refine ⟨s', ?_, hblockman, hfinal⟩
      rw [if_neg hmore, hdisconnect, ok_bind, hloop]

section Path

variable {entry : BlockPtr → CBlockIndex} {S : BlockPtr → Prop} {u w : BlockPtr}
  {path : List BlockPtr}

/-- The blocks from the first entry, left out, up to the last. -/
inductive PathTo (entry : BlockPtr → CBlockIndex) : BlockPtr → List BlockPtr → BlockPtr → Prop
  | nil (t : BlockPtr) : PathTo entry t [] t
  | cons {t p u : BlockPtr} {path : List BlockPtr} :
      (entry p).pprev = some t → PathTo entry p path u → PathTo entry t (p :: path) u

theorem PathTo.ancestor (h : PathTo entry t path u) : IsAncestor entry t u := by
  induction h with
  | nil t => exact .refl t
  | cons hprev _ ih => exact (Ancestor.of_parent hprev).trans ih

theorem PathTo.snoc (h : PathTo entry t path w) (hprev : (entry u).pprev = some w) :
    PathTo entry t (path ++ [u]) u := by
  induction h with
  | nil t => exact .cons hprev (.nil u)
  | cons hfirst _ ih => exact .cons hfirst (ih hprev)

/-- `vpindexToConnect`, read backwards, leads from the entry at the height to the target. -/
theorem collectPath_pathTo (ht : BlockTree entry S) (hu : S u) (hanc : IsAncestor entry t u)
    {fuel : Nat} (hfuel : (entry u).nHeight < fuel) :
    PathTo entry t
      (CChainState.collectPath entry (entry t).nHeight fuel (some u)).reverse u := by
  induction fuel generalizing u with
  | zero => omega
  | succ fuel ih =>
    rw [CChainState.collectPath]
    by_cases heq : t = u
    · subst heq
      rw [if_pos rfl]
      exact .nil t
    · have hne : ((entry u).nHeight : Int) ≠ (entry t).nHeight := by
        intro hheight
        exact heq (ht.graded.eq_of_height hu hanc (by omega))
      obtain ⟨w, hprev, hanc'⟩ := hanc.parent_of_ne heq
      have hsucc := ht.graded.succ hu hprev
      rw [if_neg hne, List.reverse_cons, hprev]
      exact (ih (ht.graded.mem hu hprev) hanc' (by omega)).snoc hprev

end Path

section Connect

variable {target u : BlockPtr} {path : List BlockPtr}

theorem Usable.of_ancestor (h : Usable s p) {q : BlockPtr} (hq : IsAncestor s.entry q p) :
    Usable s q :=
  fun r hr => h r (hr.trans hq)

theorem Marks.of_sameFlags {s₁ s' : CChainState} (h : Marks verdict base s₁ s')
    (hflags : SameFlags s s₁) : Marks verdict base s s' := by
  obtain ⟨hsame, q, hholds, hverdict, hbefore, hafter⟩ := h
  refine ⟨hflags.1.trans hsame, q, hholds, hverdict, ?_, hafter⟩
  rw [← hflags.failedValid_eq]
  exact hbefore

/-- What is reached from a block on the way is reached from the tip before it. -/
theorem Towards.after_connect {s₁ s' : CChainState} {t' : BlockPtr}
    {ended : CChainState.ConnectEnd} (h : Towards verdict base target s₁ p ended s' t')
    (hflags : SameFlags s s₁) (hheight : (base.entry t).nHeight ≤ (base.entry p).nHeight) :
    Towards verdict base target s t ended s' t' := by
  cases ended with
  | exhausted => exact ⟨hflags.trans h.1, h.2⟩
  | better => exact ⟨hflags.trans h.1, h.2.1, lt_of_le_of_lt hheight h.2.2⟩
  | invalidFound => exact Marks.of_sameFlags h hflags
  | systemError => exact h

theorem SameTree.pathTo {s' : CChainState} (h : SameTree s s')
    (hpath : PathTo s'.entry t path u) : PathTo s.entry t path u := by
  induction hpath with
  | nil t => exact .nil t
  | cons hprev _ ih =>
    rw [h.pprev] at hprev
    exact .cons hprev ih

theorem Towards.of_ancestor {s' : CChainState} {t' : BlockPtr} {ended : CChainState.ConnectEnd}
    (h : Towards verdict base u s t ended s' t') (hne : ended ≠ .exhausted)
    (hu : IsAncestor base.entry u target) : Towards verdict base target s t ended s' t' := by
  cases ended with
  | exhausted => exact absurd rfl hne
  | better => exact ⟨h.1, h.2.1.trans hu, h.2.2⟩
  | invalidFound => exact h
  | systemError => exact h

variable (hbest : IsBest verdict base best) (ht : BlockTree base.entry base.blockman.Holds)
  (hverdicts : SettledVerdicts verdict base)

include hbest ht hverdicts

/-- One batch: the blocks of a path are connected in order until one is invalid or the tip is
better than the old one. -/
theorem Settled.connectBatch (hpath : PathTo base.entry t path u)
    (h : Settled verdict base best s t) (hu : base.blockman.Holds u) (husable : Usable s u) (pindexOldTip : Option BlockPtr)
    (front : BlockPtr) :
    ∃ ended s' t', CChainState.connectBatch verdict pindexOldTip front path s =
        .ok (ended, s') ∧
      Settled verdict base best s' t' ∧ Towards verdict base u s t ended s' t' := by
  induction hpath generalizing s with
  | nil t => exact ⟨.exhausted, s, t, rfl, h, .of_blockman rfl, rfl⟩
  | @cons t p u path hprev hrest ih =>
    have hanc := hrest.ancestor
    have hholds := ht.graded.ancestor_mem hu hanc
    have hsucc := ht.graded.succ hholds hprev
    obtain ⟨hdata, hfailed⟩ := h.same.usable_iff.mp husable p hanc
    rw [CChainState.connectBatch]
    rcases hverdicts p hholds with hvalid | ⟨reason, hreason, hinvalid⟩
    · -- the block becomes the tip, and the candidates are pruned
      obtain ⟨hconnect, hflags, hreached⟩ :=
        h.connectTip_valid ht hholds hprev hdata hfailed hvalid
      obtain ⟨s₁, hprune, hblockman, hpruned, hreached₁⟩ :=
        hreached.pruneBlockIndexCandidates hbest
      have hsame := hflags.trans (.of_blockman hblockman)
      rw [hconnect, ok_bind]
      dsimp only
      rw [hprune, ok_bind]
      by_cases hbetter : CChainState.isBetter pindexOldTip s₁ = true
      · refine ⟨.better, s₁, p, ?_, ⟨hreached₁, fun _ => hpruned⟩, hsame, hanc, by omega⟩
        rw [if_pos hbetter]
        rfl
      · obtain ⟨ended, s', t', hloop, hreached', htowards⟩ :=
          ih ⟨hreached₁, fun _ => hpruned⟩ hu (husable.of_sameFlags hsame)
        refine ⟨ended, s', t', ?_, hreached', htowards.after_connect hsame (by omega)⟩
        rw [if_neg hbetter]
        exact hloop
    · -- the block is marked, and the attempt is over
      obtain ⟨s₁, hconnect, hsame, hmarked, hsubset, hreached⟩ :=
        h.connectTip_invalid hprev hinvalid hreason
      obtain ⟨s', hfound, hblockman, hcandidates, hreached'⟩ := hreached.invalidChainFound front
      have hentry : s'.entry = s₁.entry := by
        rw [CChainState.entry, hblockman, CChainState.entry]
      refine ⟨.invalidFound, s', t, ?_, h.of_subset hreached' (by rw [hcandidates]; exact hsubset),
        hsame.trans (.of_blockman hblockman), p, hholds, ?_, ?_, ?_⟩
      · rw [hconnect, ok_bind]
        dsimp only
        rw [if_neg hreason, hfound]
        rfl
      · rw [hinvalid]
        simp
      · rw [BlockStatus.failed, Bool.or_eq_false_iff] at hfailed
        exact hfailed.1
      · rw [hentry]
        exact hmarked

/-- The loop over the batches, from an ancestor of the target. -/
theorem Settled.connectBatches (h : Settled verdict base best s t)
    (htarget : base.blockman.Holds target) (hanc : IsAncestor base.entry t target)
    (husable : Usable s target) (pindexOldTip : Option BlockPtr) {fuel : Nat}
    (hfuel : (base.entry target).nHeight - (base.entry t).nHeight < fuel) :
    ∃ ended s' t', CChainState.connectBatches verdict pindexOldTip target fuel
        (base.entry t).nHeight s = .ok (ended, s') ∧
      Settled verdict base best s' t' ∧ Towards verdict base target s t ended s' t' := by
  induction fuel generalizing s t with
  | zero => omega
  | succ fuel ih =>
    have hle := ht.graded.height_le htarget hanc
    have hsame := h.same
    rw [CChainState.connectBatches, hsame.nHeight]
    by_cases hdone : (base.entry t).nHeight = (base.entry target).nHeight
    · have heq := ht.graded.eq_of_height htarget hanc hdone
      refine ⟨.exhausted, s, t, if_pos (by omega), h, .of_blockman rfl, heq⟩
    · rw [if_neg (by omega)]
      dsimp only
      -- the ancestor of the target at most 32 blocks up, and the path to it
      obtain ⟨height, hheight⟩ : ∃ height : Nat, (height : Int) =
          min ((base.entry t).nHeight + 32 : Int) (base.entry target).nHeight :=
        ⟨min ((base.entry t).nHeight + 32) (base.entry target).nHeight, by push_cast; rfl⟩
      obtain ⟨u, hget, hutarget, huheight⟩ := getAncestor_ok (hsame.tree ht) htarget
        (show height ≤ (s.entry target).nHeight by rw [hsame.nHeight]; omega)
      rw [hsame.isAncestor_iff] at hutarget
      rw [hsame.nHeight] at huheight
      have hholds := ht.graded.ancestor_mem htarget hutarget
      have htu := ht.graded.ancestor_of_le htarget hanc hutarget (by omega)
      have hpath := collectPath_pathTo (hsame.tree ht) hholds
        ((hsame.isAncestor_iff t u).mpr htu)
        (show (s.entry u).nHeight < (base.entry target).nHeight + 1 by rw [hsame.nHeight]; omega)
      rw [hsame.nHeight] at hpath
      have husable' := husable.of_ancestor ((hsame.isAncestor_iff u target).mpr hutarget)
      obtain ⟨ended, s₁, t₁, hbatch, hreached, htowards⟩ := h.connectBatch hbest ht hverdicts
        (hsame.pathTo hpath) hholds husable' pindexOldTip
        ((CChainState.collectPath s.entry (base.entry t).nHeight
          ((base.entry target).nHeight + 1) (some u)).headD target)
      rw [← hheight, hget, ok_bind, hbatch, ok_bind]
      by_cases hexhausted : ended = .exhausted
      · subst hexhausted
        obtain ⟨hflags, rfl⟩ := htowards
        obtain ⟨ended, s', t', hloop, hreached', htowards'⟩ :=
          ih hreached hutarget (husable.of_sameFlags hflags) (by omega)
        rw [huheight] at hloop
        exact ⟨ended, s', t', hloop, hreached', htowards'.after_connect hflags (by omega)⟩
      · refine ⟨ended, s₁, t₁, ?_, hreached, htowards.of_ancestor hexhausted hutarget⟩
        cases ended with
        | exhausted => exact absurd rfl hexhausted
        | better => rfl
        | invalidFound => rfl
        | systemError => rfl

/-- The step towards a usable entry: the tip ends on the way to it, higher than before if it
was already on the way, or an invalid block has been marked. -/
theorem Settled.activateBestChainStep {genesis : BlockPtr}
    (hroot : ∀ p, base.blockman.Holds p → IsAncestor base.entry genesis p)
    (h : Settled verdict base best s t) (htarget : base.blockman.Holds target)
    (husable : Usable s target) :
    ∃ ended s' t', s.activateBestChainStep verdict target = .ok (ended, s') ∧
      Settled verdict base best s' t' ∧
      (ended = .invalidFound ∧ Marks verdict base s s' ∨
        (ended = .exhausted ∨ ended = .better) ∧ SameFlags s s' ∧
          IsAncestor base.entry t' target ∧
          (IsAncestor base.entry t target → t ≠ target →
            (base.entry t).nHeight < (base.entry t').nHeight)) := by
  have hsame := h.same
  have htree := hsame.tree ht
  obtain ⟨fork, hfind, hfork⟩ := findFork_isFork htree (hsame.isChainTo_iff.mpr h.chain)
    h.holds htarget ((hsame.isAncestor_iff _ _).mpr (hroot target htarget))
    ((hsame.isAncestor_iff _ _).mpr (hroot t h.holds))
  have hforkTip := (hsame.isAncestor_iff _ _).mp hfork.ofTip
  have hforkTarget := (hsame.isAncestor_iff _ _).mp hfork.ofEntry
  have hlength : (base.entry t).nHeight - (base.entry fork).nHeight < s.chain.length + 1 := by
    rw [h.chain.length]
    omega
  obtain ⟨s₁, hdisconnect, hblockman, hreached⟩ := h.disconnectTo ht hforkTip hlength
  have hsame₁ := hreached.same
  have hflags : SameFlags s s₁ := .of_blockman hblockman
  obtain ⟨ended, s', t', hconnect, hreached', htowards⟩ := hreached.connectBatches hbest ht
    hverdicts htarget hforkTarget (husable.of_sameFlags hflags) s.tip
    (show (base.entry target).nHeight - (base.entry fork).nHeight <
      (base.entry target).nHeight + 2 by omega)
  refine ⟨ended, s', t', ?_, hreached', ?_⟩
  · rw [CChainState.activateBestChainStep, hfind, ok_bind, hdisconnect, ok_bind]
    dsimp only
    rw [hsame₁.nHeight, Option.map_some, Option.getD_some, hsame₁.nHeight]
    exact hconnect
  · cases ended with
    | exhausted =>
      obtain ⟨hflags', rfl⟩ := htowards
      refine .inr ⟨.inl rfl, hflags.trans hflags', .refl _, fun hanc hne => ?_⟩
      have hle := ht.graded.height_le htarget hanc
      have hneq : (base.entry t).nHeight ≠ (base.entry t').nHeight := fun heq =>
        hne (ht.graded.eq_of_height htarget hanc heq)
      omega
    | better =>
      obtain ⟨hflags', hanc', hlt⟩ := htowards
      refine .inr ⟨.inr rfl, hflags.trans hflags', hanc', fun hanc _ => ?_⟩
      -- a tip on the way to the target is itself the fork
      have hhigh := hfork.highest t (.refl t) ((hsame.isAncestor_iff _ _).mpr hanc)
      rw [hsame.nHeight, hsame.nHeight] at hhigh
      omega
    | invalidFound => exact .inl ⟨rfl, Marks.of_sameFlags htowards hflags⟩
    | systemError => cases htowards

end Connect

end Verium
