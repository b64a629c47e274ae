import Verium.Chain.Tree

/-!
`CChain`: the vector of the entries from genesis to a tip, indexed by height. `SetTip` walks
from the new tip towards genesis only until it meets an entry already in place, and `FindFork`
walks from an entry to the highest one on the chain.
-/

namespace Verium

open Lib

/-- `CChain`, as its vector `vChain`. -/
abbrev CChain := List (Option BlockPtr)

namespace CChain

variable (entry : BlockPtr → CBlockIndex)

def tip (vChain : CChain) : Option BlockPtr :=
  vChain.getLast?.join

/-- `Height()`, which is -1 for the empty chain. -/
def height (vChain : CChain) : Int :=
  (vChain.length : Int) - 1

def contains (vChain : CChain) (pindex : BlockPtr) : Bool :=
  vChain[(entry pindex).nHeight]? = some (some pindex)

/-- `vChain.resize(n)`. -/
def resize (n : Nat) (vChain : CChain) : CChain :=
  vChain.take n ++ List.replicate (n - vChain.length) none

/-- The loop of `SetTip`. Heights fall along `pprev`, so the height bounds the walk. -/
def fill : (fuel : Nat) → CChain → Option BlockPtr → CChain
  | 0, vChain, _ => vChain
  | _, vChain, none => vChain
  | fuel + 1, vChain, some pindex =>
      if contains entry vChain pindex then vChain
      else fill fuel (vChain.set (entry pindex).nHeight (some pindex)) (entry pindex).pprev

def setTip (vChain : CChain) : Option BlockPtr → CChain
  | none => []
  | some pindex =>
      fill entry ((entry pindex).nHeight + 1) (resize ((entry pindex).nHeight + 1) vChain)
        (some pindex)

/-- The loop of `FindFork`. -/
def walkToChain (vChain : CChain) : (fuel : Nat) → Option BlockPtr → Option BlockPtr
  | 0, pindex => pindex
  | _, none => none
  | fuel + 1, some pindex =>
      if contains entry vChain pindex then some pindex
      else walkToChain vChain fuel (entry pindex).pprev

/-- `FindFork` on an entry that is not null. -/
def findFork (vChain : CChain) (pindex : BlockPtr) : Result (Option BlockPtr) := do
  let start ←
    if vChain.height < ((entry pindex).nHeight : Int) then getAncestor entry pindex vChain.height
    else .ok (some pindex)
  return walkToChain entry vChain ((entry pindex).nHeight + 1) start

end CChain

/-- The vector holds exactly the ancestors of the tip, each at its height. -/
structure IsChainTo (entry : BlockPtr → CBlockIndex) (vChain : CChain) (tip : BlockPtr) : Prop where
  length : vChain.length = (entry tip).nHeight + 1
  get : ∀ h p, vChain[h]? = some (some p) ↔ IsAncestor entry p tip ∧ (entry p).nHeight = h

section Spec

variable {entry : BlockPtr → CBlockIndex} {vChain : CChain} {t p : BlockPtr}

theorem IsChainTo.contains_iff (h : IsChainTo entry vChain t) :
    vChain.contains entry p = true ↔ IsAncestor entry p t := by
  rw [CChain.contains, decide_eq_true_eq, h.get]
  exact and_iff_left rfl

theorem IsChainTo.tip_eq (h : IsChainTo entry vChain t) : vChain.tip = some t := by
  have hlast : vChain.getLast? = some (some t) := by
    rw [List.getLast?_eq_getElem?, h.length, Nat.add_sub_cancel]
    exact (h.get _ _).mpr ⟨.refl t, rfl⟩
  rw [CChain.tip, hlast]
  rfl

theorem IsChainTo.height_eq (h : IsChainTo entry vChain t) : vChain.height = (entry t).nHeight := by
  rw [CChain.height, h.length]
  omega

end Spec

section SetTip

variable {entry : BlockPtr → CBlockIndex} {S : BlockPtr → Prop} {vChain : CChain} {t p : BlockPtr}

/-- Up to height `k`, an entry that is in place has exactly its ancestors below it. -/
def SettledTo (entry : BlockPtr → CBlockIndex) (k : Nat) (vChain : CChain) : Prop :=
  ∀ r, (entry r).nHeight ≤ k → vChain.contains entry r = true →
    ∀ h q, h ≤ (entry r).nHeight →
      (vChain[h]? = some (some q) ↔ IsAncestor entry q r ∧ (entry q).nHeight = h)

/-- Below an ancestor, the ancestors of an entry are those of the ancestor. -/
theorem BlockTree.ancestor_below_iff (ht : BlockTree entry S) (htop : S t)
    (hp : IsAncestor entry p t) {q : BlockPtr} (hle : (entry q).nHeight ≤ (entry p).nHeight) :
    IsAncestor entry q p ↔ IsAncestor entry q t := by
  constructor
  · intro hq
    exact hq.trans hp
  · intro hq
    exact ht.graded.ancestor_of_le htop hq hp hle

/-- The walk of `SetTip`, started at an ancestor of the new tip above which everything is in
place already. -/
theorem fill_isChainTo (ht : BlockTree entry S) {fuel : Nat} (htop : S t)
    (hp : IsAncestor entry p t) (hlen : vChain.length = (entry t).nHeight + 1)
    (hfuel : (entry p).nHeight < fuel) (habove : ∀ h q, (entry p).nHeight < h →
      (vChain[h]? = some (some q) ↔ IsAncestor entry q t ∧ (entry q).nHeight = h))
    (hbelow : SettledTo entry (entry p).nHeight vChain) :
    IsChainTo entry (CChain.fill entry fuel vChain (some p)) t := by
  induction fuel generalizing p vChain with
  | zero => omega
  | succ fuel ih =>
    have hSp := ht.graded.ancestor_mem htop hp
    rw [CChain.fill]
    split
    · next hin =>
      refine ⟨hlen, fun h q => ?_⟩
      rcases Nat.lt_or_ge (entry p).nHeight h with hlt | hge
      · exact habove h q hlt
      · rw [hbelow p le_rfl hin h q hge]
        refine and_congr_left fun hheight => ?_
        exact ht.ancestor_below_iff htop hp (by omega)
    · -- the entry is put in its place, and everything above it still is
      have hpt := ht.graded.height_le htop hp
      have hat : ∀ h q, (entry p).nHeight ≤ h →
          ((vChain.set (entry p).nHeight (some p))[h]? = some (some q) ↔
            IsAncestor entry q t ∧ (entry q).nHeight = h) := by
        intro h q hle
        rcases Nat.lt_or_eq_of_le hle with hlt | heq
        · rw [List.getElem?_set_ne (by omega)]
          exact habove h q hlt
        · subst heq
          rw [List.getElem?_set_self (by omega), Option.some_inj, Option.some_inj]
          constructor
          · rintro rfl
            exact ⟨hp, rfl⟩
          · rintro ⟨hq, hheight⟩
            exact ht.graded.ancestor_unique htop hp hq hheight.symm
      cases hprev : (entry p).pprev with
      | none =>
        have hroot := ht.graded.root hSp hprev
        have hstop : CChain.fill entry fuel (vChain.set (entry p).nHeight (some p)) none =
            vChain.set (entry p).nHeight (some p) := by
          cases fuel <;> rfl
        rw [hstop]
        refine ⟨by rw [List.length_set, hlen], fun h q => hat h q (by omega)⟩
      | some q =>
        have hsucc := ht.graded.succ hSp hprev
        refine ih ((Ancestor.of_parent hprev).trans hp) (by rw [List.length_set, hlen])
          (by omega) (fun h r hlt => hat h r (by omega)) ?_
        intro r hr hin h u hle
        rw [CChain.contains, List.getElem?_set_ne (by omega)] at hin
        rw [List.getElem?_set_ne (by omega)]
        exact hbelow r (by omega) hin h u hle

theorem settledTo_resize (ht : BlockTree entry S)
    (hchain : vChain = [] ∨ ∃ t, S t ∧ IsChainTo entry vChain t) (n k : Nat) :
    SettledTo entry k (CChain.resize n vChain) := by
  have hget : ∀ h q, (CChain.resize n vChain)[h]? = some (some q) →
      vChain[h]? = some (some q) ∧ h < n := by
    intro h q hq
    rw [CChain.resize, List.getElem?_append] at hq
    split at hq
    · next hlt =>
      rw [List.length_take] at hlt
      rw [List.getElem?_take_of_lt (by omega)] at hq
      exact ⟨hq, by omega⟩
    · have hnone := List.eq_of_mem_replicate (List.mem_of_getElem? hq)
      cases hnone
  intro r _ hin h q hle
  rw [CChain.contains, decide_eq_true_eq] at hin
  obtain ⟨hin, hlt⟩ := hget _ _ hin
  rcases hchain with rfl | ⟨t, htip, hchain⟩
  · cases hin
  · obtain ⟨hr, -⟩ := (hchain.get _ _).mp hin
    have hlen := ht.graded.height_le htip hr
    have hsame : (CChain.resize n vChain)[h]? = vChain[h]? := by
      have hshort := hchain.length
      rw [CChain.resize, List.getElem?_append_left (by rw [List.length_take]; omega),
        List.getElem?_take_of_lt (by omega)]
    rw [hsame, hchain.get]
    refine and_congr_left fun hheight => ?_
    exact (ht.ancestor_below_iff htip hr (by omega)).symm

theorem setTip_isChainTo (ht : BlockTree entry S)
    (hchain : vChain = [] ∨ ∃ t, S t ∧ IsChainTo entry vChain t) (hp : S p) :
    IsChainTo entry (CChain.setTip entry vChain (some p)) p := by
  have hlen : (CChain.resize ((entry p).nHeight + 1) vChain).length = (entry p).nHeight + 1 := by
    rw [CChain.resize, List.length_append, List.length_take, List.length_replicate]
    omega
  refine fill_isChainTo ht hp (.refl p) hlen (Nat.lt_succ_self _) ?_
    (settledTo_resize ht hchain _ _)
  intro h q hlt
  constructor
  · intro hq
    obtain ⟨hbound, -⟩ := List.getElem?_eq_some_iff.mp hq
    omega
  · rintro ⟨hq, hheight⟩
    have hle := ht.graded.height_le hp hq
    omega

end SetTip

section FindFork

variable {entry : BlockPtr → CBlockIndex} {S : BlockPtr → Prop} {vChain : CChain} {t p : BlockPtr}

/-- The fork is the highest entry that is an ancestor of both the entry and the tip. -/
structure IsFork (entry : BlockPtr → CBlockIndex) (t p fork : BlockPtr) : Prop where
  ofTip : IsAncestor entry fork t
  ofEntry : IsAncestor entry fork p
  highest : ∀ q, IsAncestor entry q t → IsAncestor entry q p →
    (entry q).nHeight ≤ (entry fork).nHeight

theorem walkToChain_isFork (ht : BlockTree entry S) (hchain : IsChainTo entry vChain t)
    {genesis : BlockPtr} {fuel : Nat} (hp : S p) (hfuel : (entry p).nHeight < fuel)
    (hroot : IsAncestor entry genesis p) (htroot : IsAncestor entry genesis t) :
    ∃ fork, CChain.walkToChain entry vChain fuel (some p) = some fork ∧
      IsFork entry t p fork := by
  induction fuel generalizing p with
  | zero => omega
  | succ fuel ih =>
    rw [CChain.walkToChain]
    split
    · next hin =>
      exact ⟨p, rfl, hchain.contains_iff.mp hin, .refl p,
        fun q _ hqp => ht.graded.height_le hp hqp⟩
    · next hout =>
      rw [hchain.contains_iff] at hout
      have hne : genesis ≠ p := by
        rintro rfl
        exact hout htroot
      obtain ⟨q, hprev, hroot'⟩ := hroot.parent_of_ne hne
      have hsucc := ht.graded.succ hp hprev
      obtain ⟨fork, hwalk, hfork⟩ := ih (ht.graded.mem hp hprev) (by omega) hroot'
      refine ⟨fork, by rw [← hwalk, ← hprev], hfork.ofTip, .step hprev hfork.ofEntry, ?_⟩
      intro r hrt hrp
      rcases (Ancestor.iff_of_parent hprev).mp hrp with rfl | hrq
      · exact absurd hrt hout
      · exact hfork.highest r hrt hrq

/-- `FindFork` on an entry that shares its root with the chain. -/
theorem findFork_isFork (ht : BlockTree entry S) (hchain : IsChainTo entry vChain t)
    (htip : S t) {genesis : BlockPtr} (hp : S p) (hroot : IsAncestor entry genesis p)
    (htroot : IsAncestor entry genesis t) :
    ∃ fork, CChain.findFork entry vChain p = .ok (some fork) ∧ IsFork entry t p fork := by
  have hheight := hchain.height_eq
  rw [CChain.findFork, hheight]
  by_cases hhigh : ((entry t).nHeight : Int) < (entry p).nHeight
  · -- nothing above the height of the tip can be on the chain
    obtain ⟨a, hget, ha, haheight⟩ :=
      getAncestor_ok ht hp (show (entry t).nHeight ≤ (entry p).nHeight by omega)
    have hSa := ht.graded.ancestor_mem hp ha
    have hgenesis := ht.graded.height_le htip htroot
    obtain ⟨fork, hwalk, hfork⟩ := walkToChain_isFork ht hchain hSa
      (show (entry a).nHeight < (entry p).nHeight + 1 by omega)
      (ht.graded.ancestor_of_le hp hroot ha (by omega)) htroot
    rw [if_pos hhigh, hget, ok_bind]
    dsimp only
    rw [hwalk]
    refine ⟨fork, rfl, hfork.ofTip, hfork.ofEntry.trans ha, ?_⟩
    intro q hqt hqp
    have hle := ht.graded.height_le htip hqt
    exact hfork.highest q hqt (ht.graded.ancestor_of_le hp hqp ha (by omega))
  · obtain ⟨fork, hwalk, hfork⟩ := walkToChain_isFork ht hchain hp
      (show (entry p).nHeight < (entry p).nHeight + 1 by omega) hroot htroot
    rw [if_neg hhigh, ok_bind]
    dsimp only
    rw [hwalk]
    exact ⟨fork, rfl, hfork⟩

end FindFork

end Verium
