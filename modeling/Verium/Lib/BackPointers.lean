import Mathlib.Data.List.Basic
import Mathlib.Logic.Function.Basic

/-!
A list whose elements know where they stand. New elements are appended; an element is taken out by
moving the last one into its place.
-/

namespace Verium.Lib

open Function

variable {α : Type*} [DecidableEq α] {l : List α} {place : α → Option Nat} {a b : α} {i : Nat}

/-- `place` tells of every element of the list, and of no other, where it stands. -/
def Placed (l : List α) (place : α → Option Nat) : Prop :=
  ∀ a i, place a = some i ↔ l[i]? = some a

namespace Placed

omit [DecidableEq α] in
theorem unique {j : Nat} (h : Placed l place) (hi : l[i]? = some a) (hj : l[j]? = some a) :
    i = j := by
  have hplace := (h a i).mpr hi
  rw [(h a j).mpr hj] at hplace
  exact (Option.some.inj hplace).symm

omit [DecidableEq α] in
theorem congr {place' : α → Option Nat} (h : Placed l place)
    (hplace : ∀ a i, place' a = some i ↔ place a = some i) : Placed l place' :=
  fun a i => (hplace a i).trans (h a i)

theorem push (h : Placed l place) (hnew : place a = none) :
    Placed (l ++ [a]) (update place a (some l.length)) := by
  have hnot : ∀ i : Nat, l[i]? ≠ some a := by
    intro i hi
    rw [(h a i).mpr hi] at hnew
    cases hnew
  intro b i
  rcases eq_or_ne b a with rfl | hne
  · rw [update_self, Option.some_inj]
    constructor
    · rintro rfl
      exact List.getElem?_concat_length
    · intro hi
      rcases Nat.lt_or_ge i l.length with hlt | hge
      · rw [List.getElem?_append_left hlt] at hi
        exact absurd hi (hnot i)
      · have hlt := (List.getElem?_eq_some_iff.mp hi).1
        rw [List.length_append, List.length_singleton] at hlt
        omega
  · rw [update_of_ne hne, h]
    rcases Nat.lt_or_ge i l.length with hlt | hge
    · rw [List.getElem?_append_left hlt]
    · rw [List.getElem?_append_right hge, List.getElem?_eq_none hge]
      constructor
      · intro hnone
        cases hnone
      · intro hi
        rw [List.getElem?_singleton] at hi
        split at hi
        · exact absurd (Option.some.inj hi).symm hne
        · cases hi

/-- The last element moves into the hole. -/
theorem swapRemove (h : Placed l place) (ha : place a = some i) (hb : l.getLast? = some b) :
    Placed (l.set i b).dropLast (update (update place b (some i)) a none) := by
  have hi : l[i]? = some a := (h a i).mp ha
  have hlt : i < l.length := (List.getElem?_eq_some_iff.mp hi).1
  have hlast : l[l.length - 1]? = some b := by rw [← List.getLast?_eq_getElem?, hb]
  intro c j
  have hentry : (l.set i b).dropLast[j]? =
      if j < l.length - 1 then if i = j then some b else l[j]? else none := by
    rw [List.getElem?_dropLast, List.length_set]
    split
    · rw [List.getElem?_set]
      split <;> rfl
    · rfl
  rw [hentry]
  rcases eq_or_ne c a with rfl | hca
  · rw [update_self]
    constructor
    · intro hnone
      cases hnone
    · intro hj
      split at hj
      next hshort =>
        split at hj
        next heq =>
          -- the last element would be `c`, which stands at `i` only
          obtain rfl := Option.some.inj hj
          have := h.unique hi hlast
          omega
        next hne => exact absurd (h.unique hi hj) hne
      next => cases hj
  · rw [update_of_ne hca]
    rcases eq_or_ne c b with rfl | hcb
    · have hmoved : i < l.length - 1 := by
        rcases Nat.lt_or_ge i (l.length - 1) with hlt' | hge
        · exact hlt'
        · obtain rfl : i = l.length - 1 := by omega
          rw [hlast] at hi
          exact absurd (Option.some.inj hi) hca
      rw [update_self, Option.some_inj]
      constructor
      · rintro rfl
        rw [if_pos hmoved, if_pos rfl]
      · intro hj
        split at hj
        next hshort =>
          split at hj
          next heq => exact heq
          next hne =>
            have := h.unique hj hlast
            omega
        next => cases hj
    · rw [update_of_ne hcb, h]
      constructor
      · intro hj
        have hij : i ≠ j := by
          rintro rfl
          rw [hi] at hj
          exact hca (Option.some.inj hj).symm
        have hjlast : j ≠ l.length - 1 := by
          rintro rfl
          rw [hlast] at hj
          exact hcb (Option.some.inj hj).symm
        have := (List.getElem?_eq_some_iff.mp hj).1
        rw [if_pos (by omega), if_neg hij, hj]
      · intro hj
        split at hj
        next =>
          split at hj
          next => exact absurd (Option.some.inj hj).symm hcb
          next => exact hj
        next => cases hj

end Placed

end Verium.Lib
