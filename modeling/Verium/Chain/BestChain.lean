import Mathlib.Data.Nat.Cast.Order.Basic
import Mathlib.Data.Prod.Lex
import Mathlib.Data.Set.Card
import Mathlib.Order.CompletePartialOrder
import Verium.Chain.Step

/-!
`ActivateBestChain` ends on the best valid chain. `FindMostWorkChain` returns a usable
candidate that is no worse than the best entry; each step either gets nearer to it or marks a
block with an invalid verdict, of which there are finitely many.
-/

namespace Verium

open Lib

variable {verdict : BlockPtr → Verdict} {base s : CChainState} {best t p : BlockPtr}

/-- The walk from an entry to the active chain: it ends at an entry that is failed or has no
data, or has found none. -/
theorem Reached.findUnusable (h : Reached verdict base best s t)
    (ht : BlockTree base.entry base.blockman.Holds) (hp : base.blockman.Holds p)
    (hdata : ∀ q, IsAncestor base.entry q p → (base.entry q).haveTxsDownloaded = true)
    {fuel : Nat} (hfuel : (base.entry p).nHeight < fuel) :
    s.findUnusable fuel (some p) = .ok none ∧
        (∀ q, IsAncestor base.entry q p → IsAncestor base.entry q t ∨
          (s.entry q).nStatus.haveData = true ∧ (s.entry q).nStatus.failed = false) ∨
      ∃ q, s.findUnusable fuel (some p) = .ok (some q) ∧ IsAncestor base.entry q p ∧
        ((s.entry q).nStatus.failed = true ∨ (s.entry q).nStatus.haveData = false) := by
  induction fuel generalizing p with
  | zero => omega
  | succ fuel ih =>
    have hsame := h.same
    have hcontains : s.chain.contains s.entry p = true ↔ IsAncestor base.entry p t := by
      rw [(hsame.isChainTo_iff.mpr h.chain).contains_iff, hsame.isAncestor_iff]
    rw [CChainState.findUnusable]
    by_cases hin : IsAncestor base.entry p t
    · rw [if_pos (hcontains.mpr hin)]
      exact .inl ⟨rfl, fun q hq => .inl (hq.trans hin)⟩
    · have hassert : (s.entry p).haveTxsDownloaded = true ∨ (s.entry p).nHeight = 0 := by
        rw [hsame.haveTxsDownloaded]
        exact .inl (hdata p (.refl p))
      rw [if_neg (fun hc => hin (hcontains.mp hc)), assertThat_of hassert, ok_bind]
      by_cases hbad : (s.entry p).nStatus.failed = true ∨ ¬ (s.entry p).nStatus.haveData = true
      · rw [if_pos hbad]
        refine .inr ⟨p, rfl, .refl p, ?_⟩
        rwa [Bool.not_eq_true] at hbad
      · rw [if_neg hbad]
        rw [not_or, Bool.not_eq_true, not_not] at hbad
        have hself : ∀ q, IsAncestor base.entry q p → q = p ∨
            ∃ r, (base.entry p).pprev = some r ∧ IsAncestor base.entry q r := by
          intro q hq
          by_cases heq : q = p
          · exact .inl heq
          · exact .inr (hq.parent_of_ne heq)
        rw [hsame.pprev]
        cases hprev : (base.entry p).pprev with
        | none =>
          refine .inl ⟨by cases fuel <;> rfl, fun q hq => ?_⟩
          rcases hself q hq with rfl | ⟨r, hr, -⟩
          · exact .inr ⟨hbad.2, hbad.1⟩
          · rw [hprev] at hr
            cases hr
        | some r =>
          have hsucc := ht.graded.succ hp hprev
          rcases ih (ht.graded.mem hp hprev) (fun q hq => hdata q (.step hprev hq)) (by omega)
            with ⟨hwalk, hgood⟩ | ⟨q, hwalk, hq, hfound⟩
          · refine .inl ⟨hwalk, fun q hq => ?_⟩
            rcases hself q hq with rfl | ⟨r', hr', hqr⟩
            · exact .inr ⟨hbad.2, hbad.1⟩
            · rw [hprev] at hr'
              cases hr'
              exact hgood q hqr
          · exact .inr ⟨q, hwalk, .step hprev hq, hfound⟩

theorem Settled.removePath (h : Settled verdict base best s t)
    (ht : BlockTree base.entry base.blockman.Holds) (hp : base.blockman.Holds p)
    {test : BlockPtr} (htest : IsAncestor base.entry test p)
    (hfailed : (s.entry test).nStatus.failed = true) {fuel : Nat}
    (hfuel : (base.entry p).nHeight - (base.entry test).nHeight < fuel) :
    Settled verdict base best (s.removePath true test fuel (some p)) t ∧
      SameTree s (s.removePath true test fuel (some p)) ∧
      (s.removePath true test fuel (some p)).setBlockIndexCandidates.Sublist
        (s.setBlockIndexCandidates.filter (· ≠ p)) := by
  induction fuel generalizing s p with
  | zero => omega
  | succ fuel ih =>
    have hnot : ¬ ValidChain verdict base p := by
      intro hvalid
      have hunflagged := h.unflagged test (hvalid.of_ancestor htest)
      rw [hfailed] at hunflagged
      cases hunflagged
    rw [CChainState.removePath]
    by_cases heq : test = p
    · subst heq
      rw [if_pos rfl]
      exact ⟨h.of_subset (h.erase hfailed) (List.filter_subset_self _),
        show SameTree s (s.eraseCandidate test) from .of_blockman rfl, List.Sublist.refl _⟩
    · obtain ⟨r, hprev, htestr⟩ := htest.parent_of_ne heq
      have hsucc := ht.graded.succ hp hprev
      have hheight := ht.graded.height_le (ht.graded.mem hp hprev) htestr
      rw [if_neg heq]
      dsimp only
      rw [if_pos rfl, h.same.pprev, hprev]
      -- the mark makes the entry unusable, so it may leave the candidates
      have hmark := h.mark raisesFlags_failedChild hnot
      have hstep := sameTree_updateStatus raisesFlags_failedChild s p
      have hflagged : ((s.updateStatus p fun status =>
          { status with failedChild := true }).entry p).nStatus.failed = true := by
        change (Function.update s.entry p _ p).nStatus.failed = true
        rw [Function.update_self]
        simp [BlockStatus.failed]
      obtain ⟨hreached, hsame, hsub⟩ := ih
        (h.of_subset (hmark.erase hflagged) (List.filter_subset_self _)) (ht.graded.mem hp hprev)
        htestr (hstep.failed test hfailed) (by omega)
      refine ⟨hreached, ?_, hsub.trans List.filter_sublist⟩
      have herase : SameTree (s.updateStatus p fun status => { status with failedChild := true })
          ((s.updateStatus p fun status => { status with failedChild := true }).eraseCandidate p) :=
        .of_blockman rfl
      exact (hstep.trans herase).trans hsame

theorem Reached.getLast_candidate (h : Reached verdict base best s t)
    (hp : p ∈ s.setBlockIndexCandidates) :
    ∃ c, s.setBlockIndexCandidates.getLast? = some c ∧ c ∈ s.setBlockIndexCandidates ∧
      workLess base.entry c p = false := by
  have hne := List.ne_nil_of_mem hp
  refine ⟨s.setBlockIndexCandidates.getLast hne, List.getLast?_eq_some_getLast hne,
    List.getLast_mem hne, ?_⟩
  have hsorted := h.sorted
  rw [← List.dropLast_append_getLast hne, List.mem_append, List.mem_singleton] at hp
  rw [← List.dropLast_append_getLast hne, List.pairwise_append] at hsorted
  rcases hp with hp | rfl
  · rw [Bool.eq_false_iff]
    intro hless
    have hself := workLess_trans hless (hsorted.2.2 p hp _ (List.mem_singleton_self _))
    rw [workLess_irrefl] at hself
    cases hself
  · exact workLess_irrefl _ _

/-- `FindMostWorkChain` returns a usable entry no worse than the best one. -/
theorem Settled.findMostWorkLoop (hbest : IsBest verdict base best)
    (ht : BlockTree base.entry base.blockman.Holds) (h : Settled verdict base best s t)
    {fuel : Nat} (hfuel : s.setBlockIndexCandidates.length < fuel) :
    ∃ c s', CChainState.findMostWorkLoop fuel s = .ok (some c, s') ∧
      Settled verdict base best s' t ∧ SameTree s s' ∧ base.blockman.Holds c ∧
      Usable s' c ∧ workLess base.entry c best = false := by
  induction fuel generalizing s with
  | zero => omega
  | succ fuel ih =>
    obtain ⟨c, hlast, hmem, hle⟩ := h.getLast_candidate (h.best_mem hbest)
    obtain ⟨hholds, hdata⟩ := h.data c hmem
    have hsame := h.same
    rw [CChainState.findMostWorkLoop, hlast]
    dsimp only
    rw [hsame.nHeight]
    rcases h.findUnusable ht hholds (fun q hq => (hdata q hq).1)
        (Nat.lt_succ_self (base.entry c).nHeight)
      with ⟨hwalk, hgood⟩ | ⟨test, hwalk, htest, hbad⟩
    · refine ⟨c, s, ?_, h, .refl s, hholds, ?_, hle⟩
      · rw [hwalk]
        rfl
      · rw [hsame.usable_iff]
        intro q hq
        rcases hgood q hq with hchain | ⟨-, hunflagged⟩
        · exact ⟨(hdata q hq).2, h.unflagged q (h.valid.of_ancestor hchain)⟩
        · exact ⟨(hdata q hq).2, hunflagged⟩
    · have hfailed : (s.entry test).nStatus.failed = true := by
        rcases hbad with hfailed | hmissing
        · exact hfailed
        · rw [hsame.haveData, (hdata test htest).2] at hmissing
          cases hmissing
      obtain ⟨invalid, hraise⟩ := raiseBestInvalid_eq s c
      have hraised : Settled verdict base best { s with pindexBestInvalid := invalid } t :=
        h.of_subset (h.withBestInvalid _) (List.Subset.refl _)
      obtain ⟨hreached, hstep, hsub⟩ := hraised.removePath ht hholds htest hfailed
        (show _ < (base.entry c).nHeight + 1 by omega)
      -- the candidate itself is gone
      have hshorter := hsub.length_le.trans_lt
        (List.length_filter_lt_length_iff_exists.mpr ⟨c, hmem, by simp⟩)
      obtain ⟨c', s', hloop, hreached', hsame', hrest⟩ :=
        ih hreached (hshorter.trans_le (Nat.le_of_lt_succ hfuel))
      refine ⟨c', s', ?_, hreached', ?_, hrest⟩
      · rw [hwalk, ok_bind]
        dsimp only
        rw [hfailed, if_pos rfl, hraise, hraised.same.nHeight]
        exact hloop
      · have hfirst : SameTree s { s with pindexBestInvalid := invalid } := .of_blockman rfl
        exact (hfirst.trans hstep).trans hsame'

/-- Blocks with an invalid verdict that are not marked yet. -/
def unmarked (verdict : BlockPtr → Verdict) (base s : CChainState) : Set BlockPtr :=
  {p | base.blockman.Holds p ∧ verdict p ≠ .valid ∧ (s.entry p).nStatus.failedValid = false}

theorem unmarked_finite (hfinite : {p | base.blockman.Holds p}.Finite) :
    (unmarked verdict base s).Finite :=
  hfinite.subset fun _ hp => hp.1

theorem SameTree.unmarked_subset {s' : CChainState} (h : SameTree s s') :
    unmarked verdict base s' ⊆ unmarked verdict base s := by
  rintro p ⟨hholds, hverdict, hunmarked⟩
  refine ⟨hholds, hverdict, ?_⟩
  rw [Bool.eq_false_iff] at hunmarked ⊢
  exact fun hmarked => hunmarked (h.failedValid p hmarked)

theorem Marks.unmarked_ssubset {s' : CChainState} (h : Marks verdict base s s') :
    unmarked verdict base s' ⊂ unmarked verdict base s := by
  obtain ⟨hsame, p, hholds, hverdict, hbefore, hafter⟩ := h
  refine ⟨hsame.unmarked_subset, fun hsup => ?_⟩
  have hstill := (hsup ⟨hholds, hverdict, hbefore⟩).2.2
  rw [hafter] at hstill
  cases hstill

/-- How far the tip is from the cached target. -/
def ActivateVars.distance (base : CChainState) (v : ActivateVars) : Nat :=
  match v.pindexMostWork, v.s.tip with
  | some target, some tip => (base.entry target).nHeight - (base.entry tip).nHeight
  | _, _ => 0

/-- What gets less in every round: the unmarked invalid blocks, then whether a target has to
be found, then the distance to it. -/
noncomputable def ActivateVars.workLeft (verdict : BlockPtr → Verdict) (base : CChainState)
    (v : ActivateVars) : Nat ×ₗ Nat ×ₗ Nat :=
  toLex ((unmarked verdict base v.s).ncard,
    toLex (if v.pindexMostWork = none then 1 else 0, v.distance base))

/-- The invariant of the inner loop: a cached target is usable, no worse than the best entry
and ahead of the tip, and `pindexNewTip` is the tip once a block has been connected. -/
structure Activating (verdict : BlockPtr → Verdict) (base : CChainState) (best : BlockPtr)
    (v : ActivateVars) (t : BlockPtr) : Prop where
  reached : Settled verdict base best v.s t
  target : ∀ c, v.pindexMostWork = some c → base.blockman.Holds c ∧ Usable v.s c ∧
    workLess base.entry c best = false ∧ IsAncestor base.entry t c
  newTip : v.blocksConnected = true → v.pindexNewTip = some t

theorem Reached.eq_best (h : Reached verdict base best s t) (hbest : IsBest verdict base best)
    (hle : workLess base.entry t best = false) : t = best :=
  eq_of_not_workLess hle (hbest.greatest t h.holds h.valid)

theorem Activating.target_ok {v : ActivateVars} (h : Activating verdict base best v t)
    (hbest : IsBest verdict base best) (ht : BlockTree base.entry base.blockman.Holds) :
    ∃ c s', v.target = .ok (some c, s') ∧ Settled verdict base best s' t ∧
      SameTree v.s s' ∧ base.blockman.Holds c ∧ Usable s' c ∧
      workLess base.entry c best = false ∧
      (v.pindexMostWork = none ∨
        v.pindexMostWork = some c ∧ s' = v.s ∧ IsAncestor base.entry t c) := by
  rw [ActivateVars.target]
  cases hcached : v.pindexMostWork with
  | none =>
    obtain ⟨c, s', hfind, hreached, hsame, hholds, husable, hle⟩ :=
      h.reached.findMostWorkLoop hbest ht (Nat.lt_succ_self _)
    exact ⟨c, s', hfind, hreached, hsame, hholds, husable, hle, .inl rfl⟩
  | some c =>
    obtain ⟨hholds, husable, hle, hanc⟩ := h.target c hcached
    exact ⟨c, v.s, rfl, h.reached, .refl v.s, hholds, husable, hle, .inr ⟨rfl, rfl, hanc⟩⟩

/-- Going round the inner loop and going round the outer one keep the invariant alike, and
the loops are left when no block was connected or the new tip is the target. -/
theorem Activating.continue_cases {v : ActivateVars} (h : Activating verdict base best v t)
    (hconnected : v.blocksConnected = true) :
    (v.continue = .inr (true, v.s) ∧ v.pindexNewTip = v.pindexMostWork) ∨
      ∃ v', v.continue = .inl v' ∧ Activating verdict base best v' t ∧
        v'.workLeft verdict base = v.workLeft verdict base := by
  unfold ActivateVars.continue
  cases v.needsMore with
  | true => exact .inr ⟨v, rfl, h, rfl⟩
  | false =>
    rw [if_neg Bool.false_ne_true]
    unfold ActivateVars.endRound
    split
    next hend => exact .inl ⟨rfl, hend.resolve_left (fun hnot => hnot hconnected)⟩
    next =>
      refine .inr ⟨_, rfl, ⟨h.reached, h.target, ?_⟩, rfl⟩
      intro hnew
      cases hnew

/-- A step that marked a block leaves less to do. -/
theorem Marks.workLeft_lt {v v' : ActivateVars} (h : Marks verdict base s v'.s)
    (hsame : SameTree v.s s) (hfinite : {p | base.blockman.Holds p}.Finite) :
    v'.workLeft verdict base < v.workLeft verdict base := by
  rw [ActivateVars.workLeft, ActivateVars.workLeft, Prod.Lex.toLex_lt_toLex]
  apply Or.inl
  calc
    (unmarked verdict base v'.s).ncard < (unmarked verdict base s).ncard :=
      Set.ncard_lt_ncard h.unmarked_ssubset (unmarked_finite hfinite)
    _ ≤ (unmarked verdict base v.s).ncard :=
      Set.ncard_le_ncard hsame.unmarked_subset (unmarked_finite hfinite)

/-- So does one towards a target that had to be found. -/
theorem SameTree.workLeft_lt {v v' : ActivateVars} (h : SameTree v.s v'.s)
    (hfinite : {p | base.blockman.Holds p}.Finite) (hnone : v.pindexMostWork = none)
    (hsome : v'.pindexMostWork ≠ none) : v'.workLeft verdict base < v.workLeft verdict base := by
  have hsubset : unmarked verdict base v'.s ⊆ unmarked verdict base v.s := h.unmarked_subset
  have hle := Set.ncard_le_ncard hsubset (unmarked_finite hfinite)
  rw [ActivateVars.workLeft, ActivateVars.workLeft, Prod.Lex.toLex_lt_toLex]
  rcases hle.lt_or_eq with hlt | heq
  · exact .inl hlt
  · refine .inr ⟨heq, ?_⟩
    rw [Prod.Lex.toLex_lt_toLex, if_pos hnone, if_neg hsome]
    exact .inl Nat.one_pos

/-- And one that came nearer to the cached target. -/
theorem Reached.workLeft_lt {v v' : ActivateVars} {t' c : BlockPtr}
    (h : Reached verdict base best v.s t) (h' : Reached verdict base best v'.s t')
    (hflags : SameFlags v.s v'.s) (hc : v.pindexMostWork = some c)
    (hc' : v'.pindexMostWork = some c) (hnearer : (base.entry t).nHeight < (base.entry t').nHeight)
    (hle : (base.entry t').nHeight ≤ (base.entry c).nHeight) :
    v'.workLeft verdict base < v.workLeft verdict base := by
  have hunmarked : unmarked verdict base v'.s = unmarked verdict base v.s := by
    unfold unmarked
    simp only [hflags.failedValid_eq]
  rw [ActivateVars.workLeft, ActivateVars.workLeft, Prod.Lex.toLex_lt_toLex, hunmarked, hc, hc']
  refine .inr ⟨rfl, ?_⟩
  rw [Prod.Lex.toLex_lt_toLex]
  refine .inr ⟨rfl, ?_⟩
  change v'.distance base < v.distance base
  unfold ActivateVars.distance
  rw [hc, hc', h.tip_eq, h'.tip_eq]
  dsimp only
  omega

/-- The invariant after a step that did not find the tip at its target. -/
theorem Activating.afterStep {v : ActivateVars} {c : BlockPtr} {s' : CChainState}
    {t' : BlockPtr} {ended : CChainState.ConnectEnd} (h : Activating verdict base best v t)
    (ht : BlockTree base.entry base.blockman.Holds)
    (hfinite : {p | base.blockman.Holds p}.Finite) (hsame : SameTree v.s s)
    (hholds : base.blockman.Holds c) (husable : Usable s c)
    (hle : workLess base.entry c best = false) (hne : t ≠ c) (hcached : v.pindexMostWork = none ∨
      v.pindexMostWork = some c ∧ s = v.s ∧ IsAncestor base.entry t c)
    (hreached : Settled verdict base best s' t')
    (hended : ended = .invalidFound ∧ Marks verdict base s s' ∨
      (ended = .exhausted ∨ ended = .better) ∧ SameFlags s s' ∧
        IsAncestor base.entry t' c ∧ (IsAncestor base.entry t c → t ≠ c →
          (base.entry t).nHeight < (base.entry t').nHeight)) :
    Activating verdict base best (v.afterStep c ended s') t' ∧
      (v.afterStep c ended s').workLeft verdict base < v.workLeft verdict base ∧
      ((v.afterStep c ended s').pindexNewTip = (v.afterStep c ended s').pindexMostWork →
        t' = c) := by
  have htip : (v.afterStep c ended s').pindexNewTip = some t' := hreached.tip_eq
  rcases hended with ⟨rfl, hmarks⟩ | ⟨hend, hflags, hanc, hnearer⟩
  · have hmost : (v.afterStep c .invalidFound s').pindexMostWork = none := rfl
    refine ⟨⟨hreached, ?_, fun _ => htip⟩, hmarks.workLeft_lt hsame hfinite, ?_⟩
    · intro target htarget
      rw [hmost] at htarget
      cases htarget
    · intro heq
      rw [htip, hmost] at heq
      cases heq
  · have hmost : (v.afterStep c ended s').pindexMostWork = some c := by
      rcases hend with rfl | rfl
      · rfl
      · rfl
    refine ⟨⟨hreached, ?_, fun _ => htip⟩, ?_, ?_⟩
    · intro target htarget
      rw [hmost] at htarget
      cases htarget
      exact ⟨hholds, husable.of_sameFlags hflags, hle, hanc⟩
    · rcases hcached with hnone | ⟨hsome, rfl, hahead⟩
      · apply SameTree.workLeft_lt (hsame.trans hflags.1) hfinite hnone
        rw [hmost]
        simp
      · exact h.reached.workLeft_lt hreached.toReached hflags hsome hmost (hnearer hahead hne)
          (ht.graded.height_le hholds hanc)
    · intro heq
      rw [htip, hmost] at heq
      exact Option.some.inj heq

/-- One round: it goes on with less to do, or returns true at the best entry. -/
theorem Activating.activateRound {v : ActivateVars} (h : Activating verdict base best v t)
    (hbest : IsBest verdict base best) (ht : BlockTree base.entry base.blockman.Holds)
    (hfinite : {p | base.blockman.Holds p}.Finite) (hverdicts : SettledVerdicts verdict base)
    {genesis : BlockPtr} (hroot : ∀ p, base.blockman.Holds p → IsAncestor base.entry genesis p) :
    (∃ v' t', Verium.activateRound verdict v = .ok (.inl v') ∧
        Activating verdict base best v' t' ∧ v'.workLeft verdict base < v.workLeft verdict base) ∨
      ∃ s', Verium.activateRound verdict v = .ok (.inr (true, s')) ∧
        Settled verdict base best s' best := by
  obtain ⟨c, s₁, htarget, hreached, hsame, hholds, husable, hle, hcached⟩ :=
    h.target_ok hbest ht
  rw [Verium.activateRound, htarget, ok_bind]
  dsimp only
  by_cases hdone : t = c
  · -- the tip is the target already
    subst hdone
    rw [if_pos hreached.tip_eq]
    obtain rfl := hreached.eq_best hbest hle
    refine .inr ⟨s₁, ?_, hreached⟩
    rw [ActivateVars.endRound, if_pos]
    · rfl
    · rw [Bool.not_eq_true]
      cases hconnected : v.blocksConnected with
      | false => exact .inl rfl
      | true => exact .inr (h.newTip hconnected)
  · have htip : s₁.tip ≠ some c := by
      rw [hreached.tip_eq]
      simpa using hdone
    rw [if_neg htip]
    obtain ⟨ended, s', t', hstep, hreached', hended⟩ :=
      hreached.activateBestChainStep hbest ht hverdicts hroot hholds husable
    have hsystem : ended ≠ .systemError := by
      rcases hended with ⟨rfl, -⟩ | ⟨rfl | rfl, -⟩
      all_goals simp
    rw [hstep, ok_bind]
    dsimp only
    rw [if_neg hsystem]
    obtain ⟨hafter, hless, hreturn⟩ := h.afterStep ht hfinite hsame hholds husable hle hdone
      hcached hreached' hended
    rcases hafter.continue_cases rfl with ⟨hleave, hnew⟩ | ⟨v', hagain, hinv, hsameWork⟩
    · obtain rfl := hreturn hnew
      obtain rfl := hreached'.eq_best hbest hle
      refine .inr ⟨s', ?_, hreached'⟩
      rw [hleave]
      rfl
    · refine .inl ⟨v', t', ?_, hinv, hsameWork.trans_lt hless⟩
      rw [hagain]
      rfl

/-- Where the loop ends the index is consistent again, now with the best entry as tip. -/
theorem Reached.consistent (h : Reached verdict base best s best)
    (hc : Consistent verdict base t) (hbest : IsBest verdict base best) :
    Consistent verdict s best := by
  have hsame := h.same
  have hHolds := hsame.holds_eq
  obtain ⟨genesis, hroot⟩ := hc.genesis
  refine
    { tree := ?_, finite := ?_, genesis := ⟨genesis, ?_⟩, holds := ?_, chain := ?_, coins := ?_,
      valid := ⟨h.usable hbest.valid, ?_⟩, sorted := ?_, data := ?_, complete := ?_ }
  · rw [hHolds]
    exact hsame.tree hc.tree
  · rw [hHolds]
    exact hc.finite
  · intro p hp
    rw [hsame.isAncestor_iff]
    exact hroot p ((hsame.holds_iff p).mp hp)
  · rw [hHolds]
    exact h.holds
  · exact hsame.isChainTo_iff.mpr h.chain
  · rw [hsame.hashBlock]
    exact h.coins
  · intro q hq
    exact hbest.valid.2 q ((hsame.isAncestor_iff q best).mp hq)
  · rw [hsame.workLess_eq]
    exact h.sorted
  · intro p hp
    obtain ⟨hholds, hdata⟩ := h.data p hp
    refine ⟨(hsame.holds_iff p).mpr hholds, fun q hq => ?_⟩
    rw [hsame.haveTxsDownloaded, hsame.haveData]
    exact hdata q ((hsame.isAncestor_iff q p).mp hq)
  · intro p hp husable hle
    rw [hsame.workLess_eq] at hle
    exact h.complete p ((hsame.holds_iff p).mp hp) husable hle

/-- The flags raised on the way are on no valid chain, so the best entry stays the best. -/
theorem IsBest.of_reached (hbest : IsBest verdict base best)
    (h : Reached verdict base best s t) : IsBest verdict s best := by
  have hsame := h.same
  refine ⟨(hsame.holds_iff best).mpr hbest.holds, ⟨h.usable hbest.valid, ?_⟩, ?_⟩
  · intro q hq
    exact hbest.valid.2 q ((hsame.isAncestor_iff q best).mp hq)
  · intro p hp hvalid
    rw [hsame.workLess_eq]
    refine hbest.greatest p ((hsame.holds_iff p).mp hp) ⟨hsame.usable_of_usable hvalid.1, ?_⟩
    intro q hq
    exact hvalid.2 q ((hsame.isAncestor_iff q p).mpr hq)

/-- The run from a consistent state: after finitely many rounds the loop returns true, with
the best entry as its tip. -/
theorem Consistent.activateBestChain (hc : Consistent verdict s t)
    (hverdicts : SettledVerdicts verdict s) (hbest : IsBest verdict s best) :
    ∃ s' rounds, Settled verdict s best s' best ∧ ∀ fuel, rounds ≤ fuel →
      Verium.activateBestChain verdict fuel s = some (.ok (true, s')) := by
  obtain ⟨genesis, hroot⟩ := hc.genesis
  have hstart : Activating verdict s best ⟨s, none, none, s.tip, false⟩ t := by
    refine ⟨⟨hc.reached hbest, fun hpruned => hpruned.2 t hc.chain.tip_eq⟩, ?_, ?_⟩
    · intro c hcached
      cases hcached
    · intro hconnected
      cases hconnected
  obtain ⟨rounds, ⟨returned, s'⟩, ⟨rfl, hreached⟩, hrun⟩ := runLoop_total
    (Verium.activateRound verdict) (ActivateVars.workLeft verdict s)
    (fun v => ∃ t, Activating verdict s best v t)
    (fun result => result.1 = true ∧ Settled verdict s best result.2 best)
    (by
      rintro v ⟨t, hinv⟩
      rcases hinv.activateRound hbest hc.tree hc.finite hverdicts hroot with
        ⟨v', t', hround, hinv', hless⟩ | ⟨s', hround, hreached⟩
      · exact .inl ⟨v', hround, ⟨t', hinv'⟩, hless⟩
      · exact .inr ⟨(true, s'), hround, rfl, hreached⟩)
    _ ⟨t, hstart⟩
  exact ⟨s', rounds, hreached, hrun⟩

/-- Fork choice: from every consistent index `ActivateBestChain` returns true after finitely
many rounds, with the tip and the coins view at the greatest entry that ends a valid chain.
The invalid blocks it met are marked, and the index is consistent again. -/
theorem activateBestChain_best (hc : Consistent verdict s t)
    (hverdicts : SettledVerdicts verdict s) :
    ∃ best s' rounds, IsBest verdict s best ∧
      (∀ fuel, rounds ≤ fuel → activateBestChain verdict fuel s = some (.ok (true, s'))) ∧
      s'.tip = some best ∧ s'.coinsBestBlock = (s.entry best).hashBlock ∧
      (∃ since, s'.blockChecked = since ++ s.blockChecked ∧
        ∀ p ∈ since, verdict p ≠ .valid → (s'.entry p).nStatus.failedValid = true) ∧
      IsBest verdict s' best ∧ Consistent verdict s' best := by
  obtain ⟨best, hbest⟩ := exists_isBest hc.finite hc.holds hc.valid
  obtain ⟨s', rounds, hsettled, hrun⟩ := hc.activateBestChain hverdicts hbest
  have hreached := hsettled.toReached
  refine ⟨best, s', rounds, hbest, hrun, hreached.tip_eq, hreached.coins, ?_,
    hbest.of_reached hreached, hreached.consistent hc hbest⟩
  obtain ⟨since, heq, hmarked⟩ := hreached.checked
  exact ⟨since, heq, fun p hp hinvalid => (hmarked p hp).resolve_left hinvalid⟩

/-- A genesis entry, which is the tip, and two entries on it: 1 has more work than 2. -/
def forkedIndex : CChainState where
  blockman :=
    { entry := fun p =>
        match p with
        | 0 => dataEntry 10 none 0 1
        | 1 => dataEntry 11 (some 0) 1 5
        | 2 => dataEntry 12 (some 0) 1 2
        | _ => dataEntry 0 none 0 0
      blockIndex := fun hash =>
        if hash = 10 then some 0 else if hash = 11 then some 1
        else if hash = 12 then some 2 else none
      failedBlocks := []
      blocksUnlinked := [] }
  chain := [some 0]
  setBlockIndexCandidates := [0, 2, 1]
  pindexBestInvalid := none
  coinsBestBlock := 10
  blockChecked := []

/-- The block with the most work is invalid. -/
def forkedVerdict : BlockPtr → Verdict
  | 1 => .invalid .consensus
  | _ => .valid

theorem forkedIndex_holds {p : BlockPtr} (hp : forkedIndex.blockman.Holds p) :
    p = 0 ∨ p = 1 ∨ p = 2 := by
  match p, hp with
  | 0, _ => exact .inl rfl
  | 1, _ => exact .inr (.inl rfl)
  | 2, _ => exact .inr (.inr rfl)
  | _ + 3, hp => cases hp

theorem forkedIndex_ancestor {p q : BlockPtr} (hp : forkedIndex.blockman.Holds p)
    (hq : IsAncestor forkedIndex.entry q p) : q = 0 ∨ q = p := by
  by_cases heq : q = p
  · exact .inr heq
  · obtain ⟨r, hprev, hanc⟩ := hq.parent_of_ne heq
    have hr : r = 0 := by
      rcases forkedIndex_holds hp with rfl | rfl | rfl
      · cases hprev
      · cases hprev
        rfl
      · cases hprev
        rfl
    subst hr
    cases hanc with
    | refl => exact .inl rfl
    | step hnone => cases hnone

theorem forkedIndex_consistent : Consistent forkedVerdict forkedIndex 0 where
  tree := by
    refine ⟨⟨?_, ?_, ?_⟩, ?_⟩
    · intro p hp hnone
      rcases forkedIndex_holds hp with rfl | rfl | rfl
      · rfl
      · cases hnone
      · cases hnone
    · intro p q hp hprev
      rcases forkedIndex_holds hp with rfl | rfl | rfl <;> cases hprev <;> rfl
    · intro p q hp hprev
      rcases forkedIndex_holds hp with rfl | rfl | rfl <;> cases hprev <;> rfl
    · intro p q hp hskip
      rcases forkedIndex_holds hp with rfl | rfl | rfl <;> cases hskip <;>
        exact ⟨.of_parent rfl, rfl⟩
  finite := by
    apply (Set.finite_le_nat 2).subset
    intro p hp
    rcases forkedIndex_holds hp with rfl | rfl | rfl <;> simp
  genesis := by
    refine ⟨0, fun p hp => ?_⟩
    rcases forkedIndex_holds hp with rfl | rfl | rfl
    · exact .refl 0
    · exact .of_parent rfl
    · exact .of_parent rfl
  holds := rfl
  chain := by
    refine ⟨rfl, fun h p => ⟨fun hget => ?_, ?_⟩⟩
    · match h, hget with
      | 0, hget =>
        cases hget
        exact ⟨.refl 0, rfl⟩
    · rintro ⟨hanc, rfl⟩
      rcases forkedIndex_ancestor (p := 0) rfl hanc with rfl | rfl
      all_goals rfl
  coins := rfl
  valid := by
    refine ⟨fun q hq => ?_, fun q hq => ?_⟩
    · rcases forkedIndex_ancestor (p := 0) rfl hq with rfl | rfl <;> exact ⟨rfl, rfl⟩
    · rcases forkedIndex_ancestor (p := 0) rfl hq with rfl | rfl <;> rfl
  sorted := by decide
  data := by
    intro p hp
    have hholds : forkedIndex.blockman.Holds p := by
      fin_cases hp <;> rfl
    refine ⟨hholds, fun q hq => ?_⟩
    rcases forkedIndex_ancestor hholds hq with rfl | rfl
    · exact ⟨rfl, rfl⟩
    · rcases forkedIndex_holds hholds with rfl | rfl | rfl <;> exact ⟨rfl, rfl⟩
  complete := by
    intro p hp _ _
    rcases forkedIndex_holds hp with rfl | rfl | rfl <;> decide

theorem forkedIndex_settled : SettledVerdicts forkedVerdict forkedIndex := by
  intro p hp
  rcases forkedIndex_holds hp with rfl | rfl | rfl
  · exact .inl rfl
  · exact .inr ⟨.consensus, by simp, rfl⟩
  · exact .inl rfl

theorem forkedIndex_best : ∃ best s' rounds, IsBest forkedVerdict forkedIndex best ∧
    (∀ fuel, rounds ≤ fuel →
      activateBestChain forkedVerdict fuel forkedIndex = some (.ok (true, s'))) ∧
    s'.tip = some best ∧ s'.coinsBestBlock = (forkedIndex.entry best).hashBlock ∧
    (∃ since, s'.blockChecked = since ++ forkedIndex.blockChecked ∧
      ∀ p ∈ since, forkedVerdict p ≠ .valid → (s'.entry p).nStatus.failedValid = true) ∧
    IsBest forkedVerdict s' best ∧ Consistent forkedVerdict s' best :=
  activateBestChain_best forkedIndex_consistent forkedIndex_settled

/-- The tip is never given up for a worse one, and calling `ActivateBestChain` again moves neither
the tip nor the coins. -/
theorem activateBestChain_again (hc : Consistent verdict s t)
    (hverdicts : SettledVerdicts verdict s) :
    ∃ best s' s'' rounds, workLess s.entry best t = false ∧ s'.tip = some best ∧
      s''.tip = some best ∧ s''.coinsBestBlock = s'.coinsBestBlock ∧ ∀ fuel, rounds ≤ fuel →
        activateBestChain verdict fuel s = some (.ok (true, s')) ∧
        activateBestChain verdict fuel s' = some (.ok (true, s'')) := by
  obtain ⟨best, hbest⟩ := exists_isBest hc.finite hc.holds hc.valid
  obtain ⟨s', rounds, hsettled, hrun⟩ := hc.activateBestChain hverdicts hbest
  have hreached := hsettled.toReached
  have hc' := hreached.consistent hc hbest
  have hverdicts' : SettledVerdicts verdict s' :=
    fun p hp => hverdicts p ((hreached.same.holds_iff p).mp hp)
  obtain ⟨s'', rounds', hsettled', hrun'⟩ :=
    hc'.activateBestChain hverdicts' (hbest.of_reached hreached)
  have hreached' := hsettled'.toReached
  refine ⟨best, s', s'', max rounds rounds', hbest.greatest t hc.holds hc.valid, hreached.tip_eq,
    hreached'.tip_eq, hreached'.coins.trans hc'.coins.symm, fun fuel hfuel => ?_⟩
  exact ⟨hrun fuel (by omega), hrun' fuel (by omega)⟩

theorem forkedIndex_again : ∃ best s' s'' rounds, workLess forkedIndex.entry best 0 = false ∧
    s'.tip = some best ∧ s''.tip = some best ∧ s''.coinsBestBlock = s'.coinsBestBlock ∧
    ∀ fuel, rounds ≤ fuel →
      activateBestChain forkedVerdict fuel forkedIndex = some (.ok (true, s')) ∧
      activateBestChain forkedVerdict fuel s' = some (.ok (true, s'')) :=
  activateBestChain_again forkedIndex_consistent forkedIndex_settled

end Verium
