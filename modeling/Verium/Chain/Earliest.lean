import Verium.Chain.Forks
import Verium.Chain.SkipList
import Verium.Lib.Iteration

/-!
`CChain::FindEarliestAtLeast`. Its comparison looks at `nTimeMax` and at the height, and is no
order on pairs of them; but both fields grow along a chain of entries that `AddToBlockIndex` has
linked or `LoadBlockIndex` has built again, so the binary search is for the first entry that is
late and high enough.
-/

namespace Verium

open Lib

def CBlockIndex.getBlockTimeMax (pindex : CBlockIndex) : Int :=
  pindex.nTimeMax.toNat

namespace CChain

variable (entry : BlockPtr → CBlockIndex)

/-- The comparison of `FindEarliestAtLeast`, which reads the entry. -/
def isBefore (nTime height : Int) : Option BlockPtr → Result Bool
  | none => .error (.exception "null entry")
  | some pBlock =>
      .ok ((entry pBlock).getBlockTimeMax < nTime ∨ ((entry pBlock).nHeight : Int) < height)

def findEarliestAtLeast (vChain : CChain) (nTime height : Int) : Result (Option BlockPtr) := do
  let lower ← lowerBound (fun i => isBefore entry nTime height vChain[i]?.join) vChain.length
  return vChain[lower]?.join

end CChain

/-- The latest block time on the path from genesis to an entry, by one step of the path. -/
def TimesSet (entry : BlockPtr → CBlockIndex) (S : BlockPtr → Prop) : Prop :=
  ∀ p, S p → TimeSet entry (entry p)

section Times

variable {node : NodeParams} {s s' : NodeState} {entry : BlockPtr → CBlockIndex}
  {S : BlockPtr → Prop} {a p pNew pindex : BlockPtr} {e : CBlockIndex} {block : CBlockHeader}

theorem toNat_max (a b : UInt32) : ((max a b).toNat : Int) = max (a.toNat : Int) b.toNat := by
  change ((if a ≤ b then b else a).toNat : Int) = _
  split
  · next hle =>
    rw [UInt32.le_iff_toNat_le] at hle
    omega
  · next hgt =>
    rw [UInt32.le_iff_toNat_le] at hgt
    omega

theorem TimesSet.root (h : TimesSet entry S) (hp : S p) (hprev : (entry p).pprev = none) :
    (entry p).getBlockTimeMax = (entry p).getBlockTime := by
  have htime := h p hp
  rw [TimeSet, hprev] at htime
  rw [CBlockIndex.getBlockTimeMax, htime]
  rfl

theorem TimesSet.step (h : TimesSet entry S) (hp : S p) {q : BlockPtr}
    (hprev : (entry p).pprev = some q) :
    (entry p).getBlockTimeMax = max (entry q).getBlockTimeMax (entry p).getBlockTime := by
  have htime := h p hp
  rw [TimeSet, hprev] at htime
  rw [CBlockIndex.getBlockTimeMax, htime]
  exact toNat_max _ _

theorem TimesSet.insert (h : TimesSet entry S) (ht : BlockTree entry S) (hnew : ¬ S pNew)
    (he : TimeSet entry e) (hparent : ∀ q, e.pprev = some q → S q) :
    TimesSet (Function.update entry pNew e) fun p => p = pNew ∨ S p := by
  rintro p (rfl | hp)
  · rw [Function.update_self]
    exact he.congr fun q hq => update_of_mem hnew (hparent q hq)
  · rw [update_of_mem hnew hp]
    exact (h p hp).congr fun q hq => update_of_mem hnew (ht.graded.mem hp hq)

theorem BuiltIndex.timesSet (h : BuiltIndex node s) : TimesSet s.entry s.blockman.Holds := by
  induction h with
  | empty => exact fun p hp => by cases hp
  | @add s s' block pNew pindex hbuilt hfresh hhash hadd ih =>
    have hs := hbuilt.skipIndex
    obtain ⟨_, _, hadd', hcases⟩ := hs.addToBlockIndex_cases hfresh hhash
    rw [hadd] at hadd'
    cases hadd'
    obtain rfl | ⟨e, best, rfl, hnew, -, hparent, htime, -⟩ := hcases
    · exact ih
    · rw [holds_withEntry hnew]
      exact ih.insert hs.tree (hs.not_holds hfresh) htime hparent
  | load hbuilt hload _ =>
    have hs := hbuilt.skipIndex
    obtain ⟨c, hload', hloaded, hhanded⟩ := loadBlockIndex_spec hs.tree hs.listed _
    rw [hload] at hload'
    cases hload'
    exact fun p hp => (hhanded p ((hloaded.holds_iff p).mp hp)).time

theorem TimesSet.getBlockTimeMax_le (h : TimesSet entry S) (ht : BlockTree entry S) (hp : S p)
    (hanc : IsAncestor entry a p) : (entry a).getBlockTimeMax ≤ (entry p).getBlockTimeMax := by
  induction hanc with
  | refl => exact le_rfl
  | step hprev _ ih =>
    rw [h.step hp hprev]
    exact (ih (ht.graded.mem hp hprev)).trans (le_max_left _ _)

theorem TimesSet.getBlockTime_le (h : TimesSet entry S) (hp : S p) :
    (entry p).getBlockTime ≤ (entry p).getBlockTimeMax := by
  cases hprev : (entry p).pprev with
  | none => exact (h.root hp hprev).ge
  | some q =>
    rw [h.step hp hprev]
    exact le_max_right _ _

theorem TimesSet.exists_getBlockTime_eq (h : TimesSet entry S) (ht : BlockTree entry S) (hp : S p) :
    ∃ a, IsAncestor entry a p ∧ (entry a).getBlockTime = (entry p).getBlockTimeMax := by
  induction p, hp using ht.graded.upward with
  | root p hp hprev => exact ⟨p, .refl p, (h.root hp hprev).symm⟩
  | step p q hp hprev ih =>
    obtain ⟨a, ha, htime⟩ := ih
    rw [h.step hp hprev]
    rcases le_total (entry q).getBlockTimeMax (entry p).getBlockTime with hle | hle
    · exact ⟨p, .refl p, (max_eq_right hle).symm⟩
    · exact ⟨a, .step hprev ha, htime.trans (max_eq_left hle).symm⟩

theorem TimesSet.le_getBlockTimeMax_iff (h : TimesSet entry S) (ht : BlockTree entry S) (hp : S p)
    (t : Int) : t ≤ (entry p).getBlockTimeMax ↔
      ∃ a, IsAncestor entry a p ∧ t ≤ (entry a).getBlockTime := by
  constructor
  · intro hle
    obtain ⟨a, ha, htime⟩ := h.exists_getBlockTime_eq ht hp
    exact ⟨a, ha, htime ▸ hle⟩
  · rintro ⟨a, ha, hle⟩
    exact hle.trans ((h.getBlockTime_le (ht.graded.ancestor_mem hp ha)).trans
      (h.getBlockTimeMax_le ht hp ha))

end Times

/-- The lowest entry with a property. -/
def Lowest (entry : BlockPtr → CBlockIndex) (P : BlockPtr → Prop) (p : BlockPtr) : Prop :=
  P p ∧ ∀ q, P q → (entry p).nHeight ≤ (entry q).nHeight

/-- An entry of the chain that is late and high enough. -/
def LateEnough (entry : BlockPtr → CBlockIndex) (vChain : CChain) (nTime height : Int)
    (p : BlockPtr) : Prop :=
  some p ∈ vChain ∧ nTime ≤ (entry p).getBlockTimeMax ∧ height ≤ (entry p).nHeight

section Search

variable {entry : BlockPtr → CBlockIndex} {S : BlockPtr → Prop} {tip : BlockPtr} {vChain : CChain}

theorem findEarliestAtLeast_ok (ht : BlockTree entry S) (htimes : TimesSet entry S) (htip : S tip)
    (hchain : IsChainTo entry vChain tip) (nTime height : Int) :
    ∃ r, vChain.findEarliestAtLeast entry nTime height = .ok r ∧
      (∀ p, r = some p ↔ Lowest entry (LateEnough entry vChain nTime height) p) ∧
      (r = none ↔ ∀ p, ¬ LateEnough entry vChain nTime height p) := by
  have hget : ∀ i < vChain.length, ∃ p, vChain[i]? = some (some p) ∧
      IsAncestor entry p tip ∧ (entry p).nHeight = i := by
    intro i hi
    rw [hchain.length] at hi
    exact hchain.get_ancestor ht htip (by omega)
  have hmem : ∀ {p}, some p ∈ vChain → vChain[(entry p).nHeight]? = some (some p) := by
    intro p hp
    obtain ⟨i, hi⟩ := List.mem_iff_getElem?.mp hp
    obtain ⟨-, hheight⟩ := (hchain.get i p).mp hi
    rw [hheight]
    exact hi
  -- whether the comparison holds of the entry at a height
  let q : Nat → Bool := fun i =>
    vChain[i]?.join.any fun p => (entry p).getBlockTimeMax < nTime ∨
      ((entry p).nHeight : Int) < height
  have hq : ∀ {p}, some p ∈ vChain →
      (q (entry p).nHeight = false ↔ LateEnough entry vChain nTime height p) := by
    intro p hp
    simp only [q, LateEnough, hmem hp, hp, true_and, Option.join_some, Option.any_some,
      decide_eq_false_iff_not, not_or, not_lt]
  have hcomp : ∀ i < vChain.length,
      CChain.isBefore entry nTime height vChain[i]?.join = .ok (q i) := by
    intro i hi
    obtain ⟨p, hp, -, -⟩ := hget i hi
    simp only [q, hp]
    rfl
  have hmono : ∀ i j, i ≤ j → j < vChain.length → q j = true → q i = true := by
    intro i j hle hj htrue
    obtain ⟨a, ha, hanc, hi⟩ := hget i (by omega)
    obtain ⟨b, hb, hanc', hj⟩ := hget j hj
    have htime := htimes.getBlockTimeMax_le ht (ht.graded.ancestor_mem htip hanc')
      (ht.graded.ancestor_of_le htip hanc hanc' (by omega))
    simp only [q, ha, hb, Option.join_some, Option.any_some, decide_eq_true_eq] at htrue ⊢
    omega
  obtain ⟨k, hk, hbound, hiff⟩ := lowerBound_ok hcomp hmono
  rw [CChain.findEarliestAtLeast, hbound, ok_bind]
  refine ⟨_, rfl, ?_⟩
  rcases Nat.lt_or_eq_of_le hk with hlt | heq
  · obtain ⟨p, hp, -, hheight⟩ := hget k hlt
    have hmemp : some p ∈ vChain := List.mem_iff_getElem?.mpr ⟨k, hp⟩
    have hlowest : Lowest entry (LateEnough entry vChain nTime height) p := by
      refine ⟨(hq hmemp).mp ?_, fun r hr => ?_⟩
      · rw [hheight, Bool.eq_false_iff, ne_eq, hiff k hlt]
        exact lt_irrefl k
      · have hfalse := (hq hr.1).mpr hr
        rw [Bool.eq_false_iff, ne_eq, hiff _ (List.getElem?_eq_some_iff.mp (hmem hr.1)).1] at hfalse
        omega
    rw [hp]
    refine ⟨fun r => ⟨?_, fun hr => ?_⟩, ⟨nofun, fun hnone => absurd hlowest.1 (hnone p)⟩⟩
    · rintro ⟨⟩
      exact hlowest
    · have hsame : (entry p).nHeight = (entry r).nHeight :=
        le_antisymm (hlowest.2 r hr.1) (hr.2 p hlowest.1)
      have hr' := hmem hr.1.1
      rw [← hsame, hheight, hp] at hr'
      exact Option.some.inj hr'
  · have hnone : ∀ p, ¬ LateEnough entry vChain nTime height p := by
      intro p hp
      have hfalse := (hq hp.1).mpr hp
      have hlt := (List.getElem?_eq_some_iff.mp (hmem hp.1)).1
      rw [Bool.eq_false_iff, ne_eq, hiff _ hlt] at hfalse
      omega
    rw [heq, List.getElem?_eq_none le_rfl]
    exact ⟨fun p => ⟨nofun, fun hp => absurd hp.1 (hnone p)⟩, ⟨fun _ => hnone, fun _ => rfl⟩⟩

end Search

/-- On a chain that `SetTip` calls have built in an index, `FindEarliestAtLeast` gives the lowest
entry with that time and height, or null if there is none. Such a time means that the entry or an
ancestor has a block time as late. -/
theorem findEarliestAtLeast_spec {node : NodeParams} {s : NodeState} (h : BuiltIndex node s)
    (tips : List (Option BlockPtr)) (htips : ∀ p, some p ∈ tips → p ∈ s.blocks)
    (nTime height : Int) :
    ∃ r, (tips.foldl (CChain.setTip s.entry) []).findEarliestAtLeast s.entry nTime height = .ok r ∧
      (∀ p, r = some p ↔ Lowest s.entry
        (LateEnough s.entry (tips.foldl (CChain.setTip s.entry) []) nTime height) p) ∧
      (∀ p, r = some p ↔ Lowest s.entry (fun q =>
        some q ∈ tips.foldl (CChain.setTip s.entry) [] ∧ height ≤ (s.entry q).nHeight ∧
          ∃ a, IsAncestor s.entry a q ∧ nTime ≤ (s.entry a).getBlockTime) p) ∧
      (r = none ↔
        ∀ p, ¬ LateEnough s.entry (tips.foldl (CChain.setTip s.entry) []) nTime height p) := by
  have hs := h.skipIndex
  have htimes := h.timesSet
  have hrun := chainFor_foldl_setTip hs.tree fun p hp => hs.listed.mp (htips p hp)
  generalize tips.foldl (CChain.setTip s.entry) [] = vChain at hrun ⊢
  cases htip : tips.getLast?.join with
  | none =>
    rw [htip] at hrun
    cases hrun
    refine ⟨none, rfl, fun p => ⟨nofun, ?_⟩, fun p => ⟨nofun, ?_⟩, fun _ p hp => ?_, fun _ => rfl⟩
    · rintro ⟨⟨hp, -⟩, -⟩
      cases hp
    · rintro ⟨⟨hp, -⟩, -⟩
      cases hp
    · cases hp.1
  | some tip =>
    rw [htip] at hrun
    obtain ⟨hStip, hchain⟩ := hrun
    obtain ⟨r, hfind, hlowest, hnone⟩ :=
      findEarliestAtLeast_ok hs.tree htimes hStip hchain nTime height
    have hsame : LateEnough s.entry vChain nTime height = fun q =>
        some q ∈ vChain ∧ height ≤ (s.entry q).nHeight ∧
          ∃ a, IsAncestor s.entry a q ∧ nTime ≤ (s.entry a).getBlockTime := by
      funext q
      refine propext (and_congr_right fun hq => ?_)
      obtain ⟨i, hi⟩ := List.mem_iff_getElem?.mp hq
      have hheld := hs.tree.graded.ancestor_mem hStip ((hchain.get i q).mp hi).1
      rw [htimes.le_getBlockTimeMax_iff hs.tree hheld, and_comm]
    refine ⟨r, hfind, hlowest, ?_, hnone⟩
    rw [← hsame]
    exact hlowest

/-- A header of the given time on top of the entry that was added last. -/
def nextHeader (s : NodeState) (nTime : UInt32) : CBlockHeader :=
  plainHeader (s.entry (s.blocks.length - 1)).hashBlock nTime 0x1f1fffff

/-- Genesis and three headers on top of it, of which the second is dated later than the third. -/
def datedIndex : NodeState :=
  [1, 100, 5].foldl
    (fun s nTime => (addToBlockIndex plainNode (nextHeader s nTime) s.blocks.length s).2)
    (addToBlockIndex plainNode plainGenesis 0 .empty).2

theorem datedIndex_builtIndex : BuiltIndex plainNode datedIndex := by
  have hnext : ∀ {s : NodeState} {nTime : UInt32}, BuiltIndex plainNode s →
      s.blocks.length ∉ s.blocks ∧
        (nextHeader s nTime).hashPrevBlock ≠ (nextHeader s nTime).getHash plainNode.crypto →
      BuiltIndex plainNode
        (addToBlockIndex plainNode (nextHeader s nTime) s.blocks.length s).2 := by
    intro s nTime h hnew
    obtain ⟨pindex, s', hadd, -⟩ := h.skipIndex.addToBlockIndex hnew.1 hnew.2
    rw [hadd]
    exact .add h hnew.1 hnew.2 hadd
  refine hnext (hnext (hnext genesis_builtIndex ?_) ?_) ?_ <;> decide +kernel

/-- The search is for a time at which only the second header and those above it are, and goes up
to the third for the height. -/
theorem datedIndex_findEarliestAtLeast :
    (datedIndex.entry 3).getBlockTime = 5 ∧ (datedIndex.entry 3).getBlockTimeMax = 100 ∧
      ∀ height ∈ [(0, 2), (3, 3)],
        CChain.findEarliestAtLeast datedIndex.entry
          ([some 1, none, some 3].foldl (CChain.setTip datedIndex.entry) []) 50 height.1 =
            .ok (some height.2) ∧
        Lowest datedIndex.entry (LateEnough datedIndex.entry
          ([some 1, none, some 3].foldl (CChain.setTip datedIndex.entry) []) 50 height.1)
          height.2 := by
  refine ⟨by decide +kernel, by decide +kernel, fun height hheight => ?_⟩
  have hfound : CChain.findEarliestAtLeast datedIndex.entry
      ([some 1, none, some 3].foldl (CChain.setTip datedIndex.entry) []) 50 height.1 =
        .ok (some height.2) := by
    revert height
    decide +kernel
  obtain ⟨r, hr, hlowest, -⟩ := findEarliestAtLeast_spec datedIndex_builtIndex
    [some 1, none, some 3] (by
      intro p hp
      have hlisted : ∀ p ∈ [1, 3], p ∈ datedIndex.blocks := by decide +kernel
      exact hlisted p (by simpa using hp)) 50 height.1
  rw [hfound] at hr
  cases hr
  exact ⟨hfound, (hlowest _).mp rfl⟩

end Verium
