import Mathlib.Order.Nat

/-!
Forests given by a parent function. The elements that matter are those in `S`; each has a
height, which is zero at a root and one more than the parent's elsewhere. So the ancestors of
an element are linearly ordered, with exactly one at each height up to its own.
-/

namespace Verium.Lib

variable {α : Type*}

/-- Following parents from the second element leads to the first. -/
inductive Ancestor (parent : α → Option α) : α → α → Prop where
  | refl (x : α) : Ancestor parent x x
  | step {a x y : α} : parent x = some y → Ancestor parent a y → Ancestor parent a x

/-- Heights count the steps to a root, and the parent of an element of `S` is in `S`. -/
structure Graded (parent : α → Option α) (height : α → Nat) (S : α → Prop) : Prop where
  root : ∀ {x}, S x → parent x = none → height x = 0
  mem : ∀ {x y}, S x → parent x = some y → S y
  succ : ∀ {x y}, S x → parent x = some y → height x = height y + 1

section Ancestors

variable {parent : α → Option α} {a b x y : α}

theorem Ancestor.of_parent (h : parent x = some y) : Ancestor parent y x :=
  .step h (.refl y)

theorem Ancestor.trans (hab : Ancestor parent a b) (hbx : Ancestor parent b x) :
    Ancestor parent a x := by
  induction hbx with
  | refl => exact hab
  | step hparent _ ih => exact .step hparent ih

theorem Ancestor.parent_of_ne (h : Ancestor parent a x) (hne : a ≠ x) :
    ∃ y, parent x = some y ∧ Ancestor parent a y := by
  cases h with
  | refl => exact absurd rfl hne
  | step hparent hanc => exact ⟨_, hparent, hanc⟩

theorem Ancestor.iff_of_parent (h : parent x = some y) :
    Ancestor parent a x ↔ a = x ∨ Ancestor parent a y := by
  constructor
  · intro hanc
    cases hanc with
    | refl => exact .inl rfl
    | step hparent hanc =>
      rw [h] at hparent
      cases hparent
      exact .inr hanc
  · rintro (rfl | hanc)
    · exact .refl a
    · exact .step h hanc

end Ancestors

namespace Graded

variable {parent : α → Option α} {height : α → Nat} {S : α → Prop} {a b x y : α}
  (hg : Graded parent height S)

include hg

theorem parent_eq_none (hx : S x) (hzero : height x = 0) : parent x = none := by
  rw [Option.eq_none_iff_forall_ne_some]
  intro y hparent
  have hsucc := hg.succ hx hparent
  omega

/-- Induction from the roots up. -/
theorem upward {motive : ∀ x, S x → Prop} (root : ∀ x (hx : S x), parent x = none → motive x hx)
    (step : ∀ x y (hx : S x) (hparent : parent x = some y),
      motive y (hg.mem hx hparent) → motive x hx) (x : α) (hx : S x) : motive x hx := by
  induction hn : height x using Nat.strong_induction_on generalizing x with
  | _ n ih =>
    cases hparent : parent x with
    | none => exact root x hx hparent
    | some y =>
      have hsucc := hg.succ hx hparent
      exact step x y hx hparent (ih _ (by omega) y _ rfl)

theorem ancestor_mem (hx : S x) (h : Ancestor parent a x) : S a := by
  induction h with
  | refl => exact hx
  | step hparent _ ih => exact ih (hg.mem hx hparent)

theorem height_le (hx : S x) (h : Ancestor parent a x) : height a ≤ height x := by
  induction h with
  | refl => exact le_rfl
  | step hparent _ ih =>
    have hle := ih (hg.mem hx hparent)
    have hsucc := hg.succ hx hparent
    omega

theorem eq_of_height (hx : S x) (h : Ancestor parent a x) (heq : height a = height x) : a = x := by
  cases h with
  | refl => rfl
  | step hparent hanc =>
    have hle := hg.height_le (hg.mem hx hparent) hanc
    have hsucc := hg.succ hx hparent
    omega

/-- The ancestors of an element of `S` depend only on the parents of the elements of `S`. -/
theorem ancestor_congr {parent' : α → Option α} (hagree : ∀ y, S y → parent' y = parent y)
    (hx : S x) : Ancestor parent' a x ↔ Ancestor parent a x := by
  constructor
  · intro h
    induction h with
    | refl => exact .refl _
    | step hparent _ ih =>
      rw [hagree _ hx] at hparent
      exact .step hparent (ih (hg.mem hx hparent))
  · intro h
    induction h with
    | refl => exact .refl _
    | step hparent _ ih => exact .step ((hagree _ hx).trans hparent) (ih (hg.mem hx hparent))

theorem ancestor_of_le (hx : S x) (ha : Ancestor parent a x) (hb : Ancestor parent b x)
    (hle : height a ≤ height b) : Ancestor parent a b := by
  induction hb with
  | refl => exact ha
  | @step x y hparent hb ih =>
    have hbound := hg.height_le (hg.mem hx hparent) hb
    have hsucc := hg.succ hx hparent
    rcases (Ancestor.iff_of_parent hparent).mp ha with rfl | hay
    · omega
    · exact ih (hg.mem hx hparent) hay

theorem ancestor_unique (hx : S x) (ha : Ancestor parent a x) (hb : Ancestor parent b x)
    (heq : height a = height b) : a = b :=
  hg.eq_of_height (hg.ancestor_mem hx hb) (hg.ancestor_of_le hx ha hb heq.le) heq

theorem exists_ancestor (hx : S x) {h : Nat} (hle : h ≤ height x) :
    ∃ a, Ancestor parent a x ∧ height a = h := by
  induction x, hx using hg.upward with
  | root x hx hparent =>
    have hroot := hg.root hx hparent
    exact ⟨x, .refl x, by omega⟩
  | step x y hx hparent ih =>
    have hsucc := hg.succ hx hparent
    by_cases heq : h = height x
    · exact ⟨x, .refl x, heq.symm⟩
    · obtain ⟨a, ha, hheight⟩ := ih (by omega)
      exact ⟨a, .step hparent ha, hheight⟩

end Graded

end Verium.Lib
