import Verium.Chain.FailedBlocks

/-!
`ResetBlockFailureFlags` takes back what `InvalidateBlock` has marked.
-/

namespace Verium

open Lib

variable {node : NodeParams} {s s' s'' : NodeState} {t p : BlockPtr} {rounds : Nat} {r : Bool}

/-- All that `InvalidateBlock` marks are descendants of the block. -/
theorem invalidateBlock_marks (hs : Indexed node s) (ht : ActiveAt s t)
    (h : invalidateBlock rounds p s = .ok (r, s')) :
    s'.blocks = s.blocks ∧ OnlyStatus s.toCChainState s'.toCChainState ∧
      ∀ q, (s'.entry q).nStatus = (s.entry q).nStatus ∨ IsAncestor s.entry p q ∧
        (s'.entry q).nStatus = { (s.entry q).nStatus with failedValid := true } := by
  obtain ⟨t', m, c, hcut, hlast, heq, hend⟩ := invalidateBlock_spec hs.tree ht.holds ht.chain
    ht.coins (fun q hq => (ht.usable q hq).2) h
  have hc : ∀ q, (c.entry q).nStatus = (s.entry q).nStatus ∨ IsAncestor s.entry p q ∧
      (c.entry q).nStatus = { (s.entry q).nStatus with failedValid := true } := by
    intro q
    by_cases hq : IsAncestor s.entry q t → IsAncestor s.entry q t'
    · exact .inl (hcut.kept q hq)
    · obtain ⟨hqt, hnot⟩ := Classical.not_imp.mp hq
      have hmq := hlast.isAncestor_of_cut hs.tree ht.holds hcut.below hqt hnot
      exact .inr ⟨hlast.isAncestor.trans hmq, hcut.marked q hqt hnot⟩
  refine ⟨by rw [heq]; rfl, ?_⟩
  rcases hend with ⟨-, rfl⟩ | ⟨-, hsame⟩
  · exact ⟨hcut.toOnlyStatus, hc⟩
  · let mark : BlockStatus → BlockStatus := fun status => { status with failedValid := true }
    have hmark : OnlyStatus c (c.updateStatus m mark) := .updateStatus c m mark
    have hentry : s'.entry = (c.updateStatus m mark).entry := hsame.entry
    refine ⟨hcut.toOnlyStatus.trans (hmark.trans ⟨?_, ?_⟩), fun q => ?_⟩
    · rw [hsame.blockman]
      rfl
    · intro q
      rw [hentry]
    · rw [hentry, c.updateStatus_nStatus m q mark]
      split
      next hqm =>
        subst hqm
        refine .inr ⟨hlast.isAncestor, ?_⟩
        rcases hc q with hq | ⟨-, hq⟩ <;> rw [hq]
      next => exact hc q

theorem BlockStatus.eq_cleared {status : BlockStatus} (h : status.failed = false) :
    status = status.cleared := by
  obtain ⟨hvalid, hchild⟩ := Bool.or_eq_false_iff.mp h
  cases status
  simp_all [cleared]

/-- `InvalidateBlock` and then `ResetBlockFailureFlags` on one block, of any index: its ancestors
and descendants lose their failure flags, also those from before, and nothing else of the status of
any entry changes. -/
theorem resetBlockFailureFlags_invalidateBlock (hs : Indexed node s) (ht : ActiveAt s t)
    (hp : s.blockman.Holds p) (hinvalidate : invalidateBlock rounds p s = .ok (r, s'))
    (hreset : resetBlockFailureFlags p s' = .ok s'') {q : BlockPtr} (hq : s.blockman.Holds q) :
    (Related s.entry p q → (s''.entry q).nStatus = (s.entry q).nStatus.cleared) ∧
      (¬ Related s.entry p q → (s''.entry q).nStatus = (s.entry q).nStatus) := by
  obtain ⟨hblocks, honly, hmarks⟩ := invalidateBlock_marks hs ht hinvalidate
  have hholds : ∀ {q}, s'.blockman.Holds q ↔ s.blockman.Holds q := fun {q} => honly.holds_iff q
  have htree : BlockTree s'.entry s'.blockman.Holds :=
    (funext fun _ => propext hholds : s'.blockman.Holds = s.blockman.Holds) ▸ honly.tree hs.tree
  have hrelated : Related s'.entry p q ↔ Related s.entry p q :=
    or_congr (honly.isAncestor_iff p q) (honly.isAncestor_iff q p)
  obtain ⟨-, hcleared, hunflagged⟩ := resetBlockFailureFlags_spec htree
    (fun {q} => by rw [hblocks, hs.listed, hholds]) (hholds.mpr hp) hreset
  constructor
  · intro hrel
    rw [BlockStatus.eq_cleared (hunflagged q (hholds.mpr hq) (hrelated.mpr hrel))]
    rcases hcleared.nStatus q with h | ⟨-, h⟩ <;> rcases hmarks q with h' | ⟨-, h'⟩ <;>
      rw [h, h'] <;> rfl
  · intro hrel
    rcases hcleared.nStatus q with h | ⟨hrel', -⟩
    · rcases hmarks q with h' | ⟨hanc, -⟩
      · exact h.trans h'
      · exact absurd (.inl hanc) hrel
    · exact absurd (hrelated.mp hrel') hrel

/-- Two blocks of the active chain are disconnected and marked, and cleared again. -/
theorem branchState_invalidate_reset : ∃ s' s'',
    invalidateBlock 9 1 branchState = .ok (true, s') ∧ s'.chain = [some 0] ∧
      (s'.entry 2).nStatus.failedValid = true ∧ resetBlockFailureFlags 1 s' = .ok s'' ∧
      ∀ q ∈ [0, 1, 2], (s''.entry q).nStatus = (branchState.entry q).nStatus.cleared := by
  have hmarked : (invalidateBlock 9 1 branchState).map
      (fun r => (r.1, r.2.chain, (r.2.entry 2).nStatus.failedValid)) =
        .ok (true, [some 0], true) := by
    decide +kernel
  have hok : ∃ s'', (invalidateBlock 9 1 branchState >>= fun r => resetBlockFailureFlags 1 r.2) =
      .ok s'' := failure?_eq_none.mp (by decide +kernel)
  obtain ⟨s'', hok⟩ := hok
  obtain ⟨⟨r, s'⟩, hinvalidate, hreset⟩ := bind_eq_ok.mp hok
  rw [hinvalidate] at hmarked
  obtain ⟨rfl, hchain, hflag⟩ : r = true ∧ s'.chain = [some 0] ∧
      (s'.entry 2).nStatus.failedValid = true := by
    simpa [Except.map] using hmarked
  have htracked : Tracked sampleNode branchState :=
    (genesisState_atGenesis rfl).tracked_run branchRun_keepsRegister
  obtain ⟨t, ht⟩ := htracked.active
  have hholds : ∀ q ∈ [0, 1, 2], branchState.blockman.Holds q := by
    unfold BlockManager.Holds
    decide +kernel
  have hfirst : (branchState.entry 1).pprev = some 0 := by decide +kernel
  have hsecond : (branchState.entry 2).pprev = some 1 := by decide +kernel
  have hrelated : ∀ q ∈ [0, 1, 2], Related branchState.entry 1 q := by
    simp only [List.forall_mem_cons, List.not_mem_nil, false_implies, implies_true, and_true]
    exact ⟨.inr (.step hfirst (.refl 0)), .inl (.refl 1), .inl (.step hsecond (.refl 1))⟩
  refine ⟨s', s'', hinvalidate, hchain, hflag, hreset, fun q hq => ?_⟩
  exact (resetBlockFailureFlags_invalidateBlock htracked.indexed ht (hholds 1 (by simp))
    hinvalidate hreset (hholds q hq)).1 (hrelated q hq)

end Verium
