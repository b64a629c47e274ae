import Verium.Chain.Active

/-!
The active chain over a whole run of `SetTip` calls. `SetTip` stops at the first entry that is in
its place already, so the chain is right after a call because it was right before it: whatever
tips were set, in any order, the vector holds the ancestors of the last one. `FindFork` on such a
chain finds the highest common ancestor, which is the one `LastCommonAncestor` finds.
-/

namespace Verium

open Lib

section LastCommonAncestor

variable (entry : BlockPtr → CBlockIndex)

/-- The loop of `LastCommonAncestor`, which follows both pointers until they meet. -/
def meetLoop : (fuel : Nat) → (pa pb : Option BlockPtr) → Option BlockPtr × Option BlockPtr
  | fuel + 1, some pa, some pb =>
      if pa = pb then (some pa, some pb) else meetLoop fuel (entry pa).pprev (entry pb).pprev
  | _, pa, pb => (pa, pb)

/-- The entry, or its ancestor at a lower height. -/
def broughtDown (pindex : BlockPtr) (height : Nat) : Result (Option BlockPtr) :=
  if height < (entry pindex).nHeight then getAncestor entry pindex height else .ok (some pindex)

def lastCommonAncestor (pa pb : BlockPtr) : Result (Option BlockPtr) := do
  let qa ← broughtDown entry pa (entry pb).nHeight
  let qb ← broughtDown entry pb (entry pa).nHeight
  let (qa, qb) := meetLoop entry ((entry pa).nHeight + 1) qa qb
  assertThat (qa = qb) "pa == pb"
  return qa

end LastCommonAncestor

section Common

variable {entry : BlockPtr → CBlockIndex} {S : BlockPtr → Prop} {a b p t fork : BlockPtr}

/-- The fork of two ancestors is the fork of the entries themselves, if these have no other
common ancestors. -/
theorem IsFork.of_ancestors (h : IsFork entry b a fork) (ha : IsAncestor entry a p)
    (hb : IsAncestor entry b t) (hall : ∀ q, IsAncestor entry q p → IsAncestor entry q t →
      IsAncestor entry q a ∧ IsAncestor entry q b) : IsFork entry t p fork := by
  refine ⟨h.ofTip.trans hb, h.ofEntry.trans ha, ?_⟩
  intro q hqt hqp
  obtain ⟨hqa, hqb⟩ := hall q hqp hqt
  exact h.highest q hqb hqa

theorem IsFork.unique (ht : BlockTree entry S) (htip : S t) {fork' : BlockPtr}
    (h : IsFork entry t p fork) (h' : IsFork entry t p fork') : fork = fork' := by
  have hle := h'.highest fork h.ofTip h.ofEntry
  have hge := h.highest fork' h'.ofTip h'.ofEntry
  exact ht.graded.ancestor_unique htip h.ofTip h'.ofTip (le_antisymm hle hge)

theorem meetLoop_isFork (ht : BlockTree entry S) {fuel : Nat} (ha : S a) (hb : S b)
    (hlevel : (entry a).nHeight = (entry b).nHeight) (hfuel : (entry a).nHeight < fuel)
    {genesis : BlockPtr} (hroota : IsAncestor entry genesis a)
    (hrootb : IsAncestor entry genesis b) :
    ∃ fork, meetLoop entry fuel (some a) (some b) = (some fork, some fork) ∧
      IsFork entry b a fork := by
  induction fuel generalizing a b with
  | zero => omega
  | succ fuel ih =>
    rw [meetLoop]
    split
    · next heq =>
      subst heq
      exact ⟨a, rfl, .refl a, .refl a, fun q hq _ => ht.graded.height_le ha hq⟩
    · next hne =>
      -- neither entry is an ancestor of the other, so all that is common is below the parents
      have haprop : ∀ q, IsAncestor entry q a → IsAncestor entry q b → q ≠ a := by
        rintro q - hqb rfl
        exact hne (ht.graded.eq_of_height hb hqb hlevel)
      have hbprop : ∀ q, IsAncestor entry q a → IsAncestor entry q b → q ≠ b := by
        rintro q hqa - rfl
        exact hne (ht.graded.eq_of_height ha hqa hlevel.symm).symm
      obtain ⟨a', hprevA, hroota'⟩ := hroota.parent_of_ne (haprop genesis hroota hrootb)
      obtain ⟨b', hprevB, hrootb'⟩ := hrootb.parent_of_ne (hbprop genesis hroota hrootb)
      have hsuccA := ht.graded.succ ha hprevA
      have hsuccB := ht.graded.succ hb hprevB
      obtain ⟨fork, hloop, hfork⟩ := ih (ht.graded.mem ha hprevA) (ht.graded.mem hb hprevB)
        (by omega) (by omega) hroota' hrootb'
      refine ⟨fork, ?_, hfork.of_ancestors (.of_parent hprevA) (.of_parent hprevB) ?_⟩
      · rw [hprevA, hprevB]
        exact hloop
      · intro q hqa hqb
        rcases (Ancestor.iff_of_parent hprevA).mp hqa with rfl | hqa'
        · exact absurd rfl (haprop _ hqa hqb)
        · rcases (Ancestor.iff_of_parent hprevB).mp hqb with rfl | hqb'
          · exact absurd rfl (hbprop _ hqa hqb)
          · exact ⟨hqa', hqb'⟩

theorem broughtDown_ok (ht : BlockTree entry S) (hp : S p) (height : Nat) :
    ∃ a, broughtDown entry p height = .ok (some a) ∧ IsAncestor entry a p ∧
      (entry a).nHeight = min (entry p).nHeight height := by
  unfold broughtDown
  split
  · next hlt =>
    obtain ⟨a, hget, ha, hheight⟩ := getAncestor_ok ht hp hlt.le
    exact ⟨a, hget, ha, by omega⟩
  · exact ⟨p, rfl, .refl p, by omega⟩

/-- `LastCommonAncestor` of two entries with a common root, whose assertion does not fail. -/
theorem lastCommonAncestor_isFork (ht : BlockTree entry S) (hp : S p) (htip : S t)
    {genesis : BlockPtr} (hrootp : IsAncestor entry genesis p)
    (hroott : IsAncestor entry genesis t) :
    ∃ fork, lastCommonAncestor entry p t = .ok (some fork) ∧ IsFork entry t p fork := by
  obtain ⟨a, hdownA, ha, haheight⟩ := broughtDown_ok ht hp (entry t).nHeight
  obtain ⟨b, hdownB, hb, hbheight⟩ := broughtDown_ok ht htip (entry p).nHeight
  have hlow : ∀ q, IsAncestor entry q p → IsAncestor entry q t →
      IsAncestor entry q a ∧ IsAncestor entry q b := by
    intro q hqp hqt
    have hqp' := ht.graded.height_le hp hqp
    have hqt' := ht.graded.height_le htip hqt
    exact ⟨ht.graded.ancestor_of_le hp hqp ha (by omega),
      ht.graded.ancestor_of_le htip hqt hb (by omega)⟩
  obtain ⟨hroota, hrootb⟩ := hlow genesis hrootp hroott
  obtain ⟨fork, hloop, hfork⟩ := meetLoop_isFork ht
    (ht.graded.ancestor_mem hp ha) (ht.graded.ancestor_mem htip hb) (by omega)
    (show (entry a).nHeight < (entry p).nHeight + 1 by omega) hroota hrootb
  refine ⟨fork, ?_, hfork.of_ancestors ha hb hlow⟩
  rw [lastCommonAncestor, hdownA, hdownB, ok_bind, ok_bind, hloop]
  dsimp only
  rw [assertThat_of rfl, ok_bind]
  rfl

end Common

section Runs

variable {entry : BlockPtr → CBlockIndex} {S : BlockPtr → Prop} {vChain : CChain}

/-- The chain is the one to the tip, and the empty one if there is no tip. -/
def ChainFor (entry : BlockPtr → CBlockIndex) (S : BlockPtr → Prop) (vChain : CChain) :
    Option BlockPtr → Prop
  | none => vChain = []
  | some tip => S tip ∧ IsChainTo entry vChain tip

theorem ChainFor.setTip (ht : BlockTree entry S) {tip next : Option BlockPtr}
    (h : ChainFor entry S vChain tip) (hnext : ∀ p, next = some p → S p) :
    ChainFor entry S (CChain.setTip entry vChain next) next := by
  cases next with
  | none => rfl
  | some p =>
    refine ⟨hnext p rfl, setTip_isChainTo ht ?_ (hnext p rfl)⟩
    cases tip with
    | none => exact .inl h
    | some tip => exact .inr ⟨tip, h⟩

theorem chainFor_foldl_setTip (ht : BlockTree entry S) {tips : List (Option BlockPtr)}
    (htips : ∀ p, some p ∈ tips → S p) :
    ChainFor entry S (tips.foldl (CChain.setTip entry) []) tips.getLast?.join := by
  induction tips using List.reverseRecOn with
  | nil => rfl
  | append_singleton tips next ih =>
    rw [List.foldl_concat, List.getLast?_concat]
    refine (ih fun p hp => htips p (List.mem_append_left _ hp)).setTip ht ?_
    rintro p rfl
    exact htips p (List.mem_append_right _ List.mem_cons_self)

theorem IsChainTo.get_ancestor (ht : BlockTree entry S) {tip : BlockPtr} (htip : S tip)
    (h : IsChainTo entry vChain tip) {height : Nat} (hle : height ≤ (entry tip).nHeight) :
    ∃ a, vChain[height]? = some (some a) ∧ IsAncestor entry a tip ∧
      (entry a).nHeight = height := by
  obtain ⟨a, ha, hheight⟩ := ht.graded.exists_ancestor htip hle
  exact ⟨a, (h.get height a).mpr ⟨ha, hheight⟩, ha, hheight⟩

theorem findFork_nil (entry : BlockPtr → CBlockIndex) (p : BlockPtr) :
    CChain.findFork entry [] p = .ok none := by
  have hnone : getAncestor entry p (CChain.height []) = .ok none := by
    rw [getAncestor, if_pos (.inr (by decide))]
  rw [CChain.findFork, if_pos (by simp [CChain.height]; omega), hnone]
  rfl

end Runs

/-- After any sequence of `SetTip` calls with entries of one tree, or null, `vChain` is empty if
the last call was with null and otherwise has exactly the ancestors of the last tip, each at its
height. So `Contains` tells the ancestors of the tip from other entries, and `FindFork` gives the
highest ancestor that is on the chain, as `LastCommonAncestor` with the tip does. -/
theorem setTip_run {entry : BlockPtr → CBlockIndex} {S : BlockPtr → Prop} {genesis : BlockPtr}
    (ht : BlockTree entry S) (hroot : ∀ p, S p → IsAncestor entry genesis p)
    (tips : List (Option BlockPtr)) (htips : ∀ p, some p ∈ tips → S p) :
    match tips.getLast?.join with
    | none => tips.foldl (CChain.setTip entry) [] = [] ∧
        ∀ p, S p → CChain.contains entry (tips.foldl (CChain.setTip entry) []) p = false ∧
          CChain.findFork entry (tips.foldl (CChain.setTip entry) []) p = .ok none
    | some tip =>
        IsChainTo entry (tips.foldl (CChain.setTip entry) []) tip ∧
        (∀ height ≤ (entry tip).nHeight, ∃ a,
          (tips.foldl (CChain.setTip entry) [])[height]? = some (some a) ∧
          IsAncestor entry a tip ∧ (entry a).nHeight = height) ∧
        ∀ p, S p →
          (CChain.contains entry (tips.foldl (CChain.setTip entry) []) p = true ↔
            IsAncestor entry p tip) ∧
          ∃ fork, CChain.findFork entry (tips.foldl (CChain.setTip entry) []) p = .ok (some fork) ∧
            IsFork entry tip p fork ∧ lastCommonAncestor entry p tip = .ok (some fork) := by
  have hrun := chainFor_foldl_setTip ht htips
  generalize tips.foldl (CChain.setTip entry) [] = vChain at hrun ⊢
  cases htip : tips.getLast?.join with
  | none =>
    rw [htip] at hrun
    cases hrun
    exact ⟨rfl, fun p _ => ⟨rfl, findFork_nil entry p⟩⟩
  | some tip =>
    rw [htip] at hrun
    obtain ⟨hStip, hchain⟩ := hrun
    refine ⟨hchain, fun height hle => hchain.get_ancestor ht hStip hle, ?_⟩
    intro p hp
    obtain ⟨fork, hfind, hfork⟩ :=
      findFork_isFork ht hchain hStip hp (hroot p hp) (hroot tip hStip)
    obtain ⟨last, hlast, hfork'⟩ :=
      lastCommonAncestor_isFork ht hp hStip (hroot p hp) (hroot tip hStip)
    rw [hfork'.unique ht hStip hfork] at hlast
    exact ⟨hchain.contains_iff, fork, hfind, hfork, hlast⟩

/-- A chain of three entries, and a fourth one that is another child of the first. -/
def forkedEntry : BlockPtr → CBlockIndex
  | 0 => dataEntry 77 none 0 1
  | 1 => dataEntry 78 (some 0) 1 2
  | 2 => { dataEntry 79 (some 1) 2 3 with pskip := some 0 }
  | _ => dataEntry 80 (some 0) 1 2

theorem forkedEntry_root : ∀ p < 4, IsAncestor forkedEntry 0 p := by
  intro p hp
  have hone : IsAncestor forkedEntry 0 1 := .of_parent rfl
  interval_cases p
  · exact .refl 0
  · exact hone
  · exact .step rfl hone
  · exact .of_parent rfl

theorem forkedEntry_tree : BlockTree forkedEntry (· < 4) := by
  refine ⟨⟨?_, ?_, ?_⟩, ?_⟩
  · intro p hp hprev
    interval_cases p
    · rfl
    · cases hprev
    · cases hprev
    · cases hprev
  · intro p q hp hprev
    interval_cases p <;> cases hprev <;> decide
  · intro p q hp hprev
    interval_cases p <;> cases hprev <;> rfl
  · intro p q hp hskip
    interval_cases p
    · cases hskip
    · cases hskip
      exact ⟨.of_parent rfl, rfl⟩
    · cases hskip
      exact ⟨forkedEntry_root 2 hp, rfl⟩
    · cases hskip
      exact ⟨.of_parent rfl, rfl⟩

/-- Up one branch, over to the other, to null and back to the first. -/
theorem forkedEntry_setTip :
    IsChainTo forkedEntry ([some 2, some 3, none, some 1].foldl (CChain.setTip forkedEntry) []) 1 ∧
      ∃ fork, lastCommonAncestor forkedEntry 3 1 = .ok (some fork) ∧
        IsFork forkedEntry 1 3 fork := by
  have htips : ∀ p, some p ∈ [some 2, some 3, none, some 1] → p < 4 := by
    intro p hp
    simp only [List.mem_cons, Option.some_inj, reduceCtorEq, List.not_mem_nil, or_false,
      false_or] at hp
    rcases hp with rfl | rfl | rfl <;> decide
  have hrun := setTip_run forkedEntry_tree forkedEntry_root _ htips
  obtain ⟨hchain, -, hforks⟩ := hrun
  obtain ⟨-, fork, -, hfork, hlast⟩ := hforks 3 (by decide)
  exact ⟨hchain, fork, hlast, hfork⟩

end Verium
