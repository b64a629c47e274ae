import Verium.Chain.Index
import Verium.Consensus.Validation
import Verium.Lib.Ancestry

/-!
The block tree: entries linked by `pprev`, the order in which the node prefers them, the skip
list that `GetAncestor` uses, and `CChain`, the vector of the entries from genesis to a tip.
Entries live in memory at their pointers, so the functions here read them through `entry`.
-/

namespace Verium

open Lib

section WorkComparator

/-- `CBlockIndexWorkComparator()(pa, pb)`: `pa` sorts before `pb`, as the worse of the two. -/
def workLess (entry : BlockPtr → CBlockIndex) (pa pb : BlockPtr) : Bool :=
  let a := entry pa
  let b := entry pb
  if b.nChainWork < a.nChainWork then false
  else if a.nChainWork < b.nChainWork then true
  else if a.nSequenceId < b.nSequenceId then false
  else if b.nSequenceId < a.nSequenceId then true
  -- the address breaks ties between blocks loaded from disk
  else Nat.blt pb pa

variable {entry : BlockPtr → CBlockIndex} {p q r : Nat}

theorem workLess_iff : workLess entry p q = true ↔
    (entry p).nChainWork < (entry q).nChainWork ∨
      (entry p).nChainWork = (entry q).nChainWork ∧
        ((entry q).nSequenceId < (entry p).nSequenceId ∨
          (entry p).nSequenceId = (entry q).nSequenceId ∧ q < p) := by
  unfold workLess
  dsimp only
  split
  · simp only [Bool.false_eq_true, false_iff]
    omega
  · split
    · simp only [true_iff]
      omega
    · split
      · simp only [Bool.false_eq_true, false_iff]
        omega
      · split
        · simp only [true_iff]
          omega
        · rw [Nat.blt_eq]
          omega

theorem workLess_irrefl (entry : BlockPtr → CBlockIndex) (p : BlockPtr) :
    workLess entry p p = false := by
  rw [Bool.eq_false_iff, ne_eq, workLess_iff]
  omega

theorem workLess_trans (hpq : workLess entry p q = true) (hqr : workLess entry q r = true) :
    workLess entry p r = true := by
  rw [workLess_iff] at hpq hqr ⊢
  omega

theorem eq_of_not_workLess (hpq : workLess entry p q = false) (hqp : workLess entry q p = false) :
    p = q := by
  rw [Bool.eq_false_iff, ne_eq, workLess_iff] at hpq hqp
  omega

theorem not_workLess_trans (hpq : workLess entry p q = false) (hqr : workLess entry q r = false) :
    workLess entry p r = false := by
  rw [Bool.eq_false_iff, ne_eq, workLess_iff] at hpq hqr ⊢
  omega

end WorkComparator

section SkipList

def invertLowestOne (n : Nat) : Nat :=
  n &&& (n - 1)

def getSkipHeight (height : Nat) : Nat :=
  if height < 2 then 0
  else if height &&& 1 ≠ 0 then invertLowestOne (invertLowestOne (height - 1)) + 1
  else invertLowestOne height

theorem invertLowestOne_le (n : Nat) : invertLowestOne n ≤ n - 1 :=
  Nat.and_le_right

theorem getSkipHeight_lt {height : Nat} (h : 0 < height) : getSkipHeight height < height := by
  unfold getSkipHeight
  split
  · omega
  · split
    · have hinner := invertLowestOne_le (height - 1)
      have houter := invertLowestOne_le (invertLowestOne (height - 1))
      omega
    · have hle := invertLowestOne_le height
      omega

variable (entry : BlockPtr → CBlockIndex)

/-- The loop of `GetAncestor`. The height falls in every round, so it bounds their number. -/
def getAncestorLoop (height : Nat) :
    (fuel : Nat) → (pindexWalk : BlockPtr) → (heightWalk : Nat) → Result BlockPtr
  | 0, pindexWalk, _ => .ok pindexWalk
  | fuel + 1, pindexWalk, heightWalk =>
      if heightWalk ≤ height then .ok pindexWalk
      else
        let heightSkip := getSkipHeight heightWalk
        let heightSkipPrev := getSkipHeight (heightWalk - 1)
        -- only follow pskip if pprev->pskip isn't better than pskip->pprev
        let useSkip := heightSkip = height ∨
          height < heightSkip ∧ ¬ (heightSkipPrev + 2 < heightSkip ∧ height ≤ heightSkipPrev)
        match (entry pindexWalk).pskip, decide useSkip with
        | some pskip, true => getAncestorLoop height fuel pskip heightSkip
        | _, _ =>
            match (entry pindexWalk).pprev with
            | none => .error (.assertion "pindexWalk->pprev")
            | some pprev => getAncestorLoop height fuel pprev (heightWalk - 1)

def getAncestor (pindex : BlockPtr) (height : Int) : Result (Option BlockPtr) :=
  if ((entry pindex).nHeight : Int) < height ∨ height < 0 then .ok none
  else some <$> getAncestorLoop entry height.toNat (entry pindex).nHeight pindex
    (entry pindex).nHeight

end SkipList

/-- `a` is an ancestor of `p`, or `p` itself. -/
abbrev IsAncestor (entry : BlockPtr → CBlockIndex) (a p : BlockPtr) : Prop :=
  Ancestor (fun p => (entry p).pprev) a p

/-- The entries that satisfy `S` form a tree: heights count the steps to genesis, and skip
pointers are where `BuildSkip` puts them. -/
structure BlockTree (entry : BlockPtr → CBlockIndex) (S : BlockPtr → Prop) : Prop where
  graded : Graded (fun p => (entry p).pprev) (fun p => (entry p).nHeight) S
  skip : ∀ {p q}, S p → (entry p).pskip = some q →
    IsAncestor entry q p ∧ (entry q).nHeight = getSkipHeight (entry p).nHeight

section GetAncestor

variable {entry : BlockPtr → CBlockIndex} {S : BlockPtr → Prop} (ht : BlockTree entry S)

include ht

theorem getAncestorLoop_ok {height fuel : Nat} {p : BlockPtr} (hp : S p)
    (hle : height ≤ (entry p).nHeight) (hfuel : (entry p).nHeight ≤ fuel) :
    ∃ a, getAncestorLoop entry height fuel p (entry p).nHeight = .ok a ∧
      IsAncestor entry a p ∧ (entry a).nHeight = height := by
  induction fuel generalizing p with
  | zero => exact ⟨p, rfl, .refl p, by omega⟩
  | succ fuel ih =>
    rw [getAncestorLoop]
    by_cases hdone : (entry p).nHeight ≤ height
    · exact ⟨p, if_pos hdone, .refl p, by omega⟩
    · rw [if_neg hdone]
      dsimp only
      split
      · next pskip hskip huse =>
        -- the skip pointer is followed only when it does not go past the height wanted
        obtain ⟨hanc, hheight⟩ := ht.skip hp hskip
        have hlt := getSkipHeight_lt (show 0 < (entry p).nHeight by omega)
        rw [decide_eq_true_eq] at huse
        obtain ⟨a, hloop, ha, haheight⟩ :=
          ih (ht.graded.ancestor_mem hp hanc) (by omega) (by omega)
        rw [hheight] at hloop
        exact ⟨a, hloop, ha.trans hanc, haheight⟩
      · cases hprev : (entry p).pprev with
        | none =>
          have hroot := ht.graded.root hp hprev
          omega
        | some q =>
          have hsucc := ht.graded.succ hp hprev
          obtain ⟨a, hloop, ha, haheight⟩ := ih (ht.graded.mem hp hprev) (by omega) (by omega)
          refine ⟨a, ?_, .step hprev ha, haheight⟩
          rw [show (entry p).nHeight - 1 = (entry q).nHeight by omega]
          exact hloop

theorem getAncestor_ok {p : BlockPtr} (hp : S p) {height : Nat} (hle : height ≤ (entry p).nHeight) :
    ∃ a, getAncestor entry p height = .ok (some a) ∧
      IsAncestor entry a p ∧ (entry a).nHeight = height := by
  obtain ⟨a, hloop, ha, hheight⟩ := getAncestorLoop_ok ht hp hle le_rfl
  refine ⟨a, ?_, ha, hheight⟩
  rw [getAncestor, if_neg (by omega), Int.toNat_natCast, hloop]
  rfl

end GetAncestor

end Verium
