import Mathlib.Algebra.BigOperators.Group.List.Basic
import Mathlib.Algebra.Order.BigOperators.Group.List
import Mathlib.Data.List.AList
import Mathlib.Data.List.Forall2
import Mathlib.Data.List.NodupEquivFin
import Mathlib.Data.List.Sort
import Mathlib.Order.Fin.Basic
import Mathlib.Tactic.Abel

/-!
Lists and finite maps. The element at a position of the sorted list is found by counting how many
elements are smaller, which is easy to follow when the list changes at both ends. An
order-preserving matching relates each element of one list to an element of another, in increasing
positions; taking the first partner that fits never loses one. A tally is the total weight of the
entries of a map.
-/

namespace Verium.Lib

section OrderStatistics

variable {α : Type*} [LinearOrder α] {l : List α} {m : α} {i : Nat}

theorem le_getElem_of_countP_le (hsorted : l.Pairwise (· ≤ ·)) (hi : i < l.length)
    (hcount : l.countP (· < m) ≤ i) : m ≤ l[i] := by
  by_contra hlt
  rw [not_le] at hlt
  have hall : ∀ x ∈ l.take (i + 1), decide (x < m) = true := by
    intro x hx
    obtain ⟨j, hj, rfl⟩ := List.mem_take_iff_getElem.mp hx
    have hle : l[j] ≤ l[i] := by
      rcases Nat.lt_or_eq_of_le (show j ≤ i by omega) with hji | rfl
      · exact List.pairwise_iff_getElem.mp hsorted j i _ hi hji
      · exact le_rfl
    exact decide_eq_true (hle.trans_lt hlt)
  have htake : (l.take (i + 1)).countP (· < m) = i + 1 := by
    rw [List.countP_eq_length.mpr hall, List.length_take]
    omega
  have hsub := (List.take_sublist (i + 1) l).countP_le (p := (decide <| · < m))
  omega

theorem countP_lt_getElem_le (hsorted : l.Pairwise (· ≤ ·)) (hi : i < l.length) :
    l.countP (· < l[i]) ≤ i := by
  have hzero : (l.drop i).countP (· < l[i]) = 0 := by
    rw [List.countP_eq_zero]
    intro x hx
    obtain ⟨j, hj, rfl⟩ := List.mem_drop_iff_getElem.mp hx
    rw [decide_eq_true_eq, not_lt]
    rcases Nat.eq_zero_or_pos j with rfl | hpos
    · exact le_rfl
    · exact List.pairwise_iff_getElem.mp hsorted i (i + j) hi _ (by omega)
  have hsplit : l.countP (· < l[i]) =
      (l.take i).countP (· < l[i]) + (l.drop i).countP (· < l[i]) := by
    rw [← List.countP_append, List.take_append_drop]
  have hlength : (l.take i).countP (· < l[i]) ≤ i :=
    List.countP_le_length.trans (List.length_take_le i l)
  omega

theorem countP_getElem_lt_le (hsorted : l.Pairwise (· ≤ ·)) (hi : i < l.length) :
    l.countP (l[i] < ·) + i < l.length := by
  have hzero : (l.take (i + 1)).countP (l[i] < ·) = 0 := by
    rw [List.countP_eq_zero]
    intro x hx
    obtain ⟨j, hj, rfl⟩ := List.mem_take_iff_getElem.mp hx
    rw [decide_eq_true_eq, not_lt]
    rcases Nat.lt_or_eq_of_le (show j ≤ i by omega) with hji | rfl
    · exact List.pairwise_iff_getElem.mp hsorted j i _ hi hji
    · exact le_rfl
  have hsplit : l.countP (l[i] < ·) =
      (l.take (i + 1)).countP (l[i] < ·) + (l.drop (i + 1)).countP (l[i] < ·) := by
    rw [← List.countP_append, List.take_append_drop]
  have hlength : (l.drop (i + 1)).countP (l[i] < ·) ≤ l.length - (i + 1) :=
    List.countP_le_length.trans_eq List.length_drop
  omega

/-- The element at a position of the sorted list, compared by counting. -/
theorem le_getElem_insertionSort_iff (hi : i < (l.insertionSort (· ≤ ·)).length) :
    m ≤ (l.insertionSort (· ≤ ·))[i] ↔ l.countP (· < m) ≤ i := by
  have hsorted := List.pairwise_insertionSort (· ≤ ·) l
  have hperm := (List.perm_insertionSort (· ≤ ·) l).countP_eq (decide <| · < m)
  rw [← hperm]
  constructor
  · intro hle
    refine le_trans ?_ (countP_lt_getElem_le hsorted hi)
    refine List.countP_mono_left fun x _ hx => ?_
    rw [decide_eq_true_eq] at hx ⊢
    exact hx.trans_le hle
  · exact le_getElem_of_countP_le hsorted hi

end OrderStatistics

section Matchings

open List

variable {α β : Type} {R : α → β → Prop} {a : α} {b : β} {l₁ : List α} {l₂ : List β}

theorem SublistForall₂.of_cons_left (h : SublistForall₂ R (a :: l₁) l₂) :
    SublistForall₂ R l₁ l₂ := by
  induction l₂ with
  | nil => cases h
  | cons b l₂ ih =>
    cases h with
    | cons _ h => exact .cons_right h
    | cons_right h => exact .cons_right (ih h)

theorem sublistForall₂_cons_cons_of_rel (hab : R a b) :
    SublistForall₂ R (a :: l₁) (b :: l₂) ↔ SublistForall₂ R l₁ l₂ := by
  constructor
  · intro h
    cases h with
    | cons _ h => exact h
    | cons_right h => exact SublistForall₂.of_cons_left h
  · exact .cons hab

theorem sublistForall₂_cons_cons_of_not_rel (hab : ¬ R a b) :
    SublistForall₂ R (a :: l₁) (b :: l₂) ↔ SublistForall₂ R (a :: l₁) l₂ := by
  constructor
  · intro h
    cases h with
    | cons hrel _ => exact absurd hrel hab
    | cons_right h => exact h
  · exact .cons_right

theorem SublistForall₂.length_le (h : SublistForall₂ R l₁ l₂) : l₁.length ≤ l₂.length := by
  induction h with
  | nil => exact Nat.zero_le _
  | cons _ _ ih => exact Nat.succ_le_succ ih
  | cons_right _ ih => exact Nat.le_succ_of_le ih

/-- A matching as a map of positions. -/
theorem sublistForall₂_iff_exists_orderEmbedding :
    SublistForall₂ R l₁ l₂ ↔
      ∃ f : Fin l₁.length ↪o Fin l₂.length, ∀ i, R (l₁.get i) (l₂.get (f i)) := by
  rw [sublistForall₂_iff]
  constructor
  · rintro ⟨l, hrel, hsub⟩
    obtain ⟨f, hf⟩ := sublist_iff_exists_fin_orderEmbedding_get_eq.mp hsub
    refine ⟨(Fin.castOrderIso hrel.length_eq).toOrderEmbedding.trans f, fun i => ?_⟩
    have hget := hf (Fin.cast hrel.length_eq i)
    rw [RelEmbedding.coe_trans, Function.comp_apply]
    change R _ (l₂.get (f (Fin.cast hrel.length_eq i)))
    rw [← hget]
    exact (forall₂_iff_get.mp hrel).2 i i.isLt (hrel.length_eq ▸ i.isLt)
  · rintro ⟨f, hf⟩
    refine ⟨ofFn fun i => l₂.get (f i), ?_, ?_⟩
    · rw [forall₂_iff_get]
      refine ⟨by simp, fun i hi _ => ?_⟩
      simpa using hf ⟨i, hi⟩
    · rw [sublist_iff_exists_fin_orderEmbedding_get_eq]
      refine ⟨(Fin.castOrderIso (by simp)).toOrderEmbedding.trans f, fun i => ?_⟩
      simp
      rfl

end Matchings

section Tallies

variable {κ ν M : Type*} [DecidableEq κ] [AddCommGroup M] {weight : ν → M}
  {m : AList fun _ : κ => ν} {k : κ} {v v' : ν}

theorem lookup_insert_eq_some {k' : κ} :
    (m.insert k v).lookup k' = some v' ↔ k' = k ∧ v = v' ∨ k' ≠ k ∧ m.lookup k' = some v' := by
  rcases eq_or_ne k' k with rfl | hne
  · simp
  · simp [AList.lookup_insert_ne hne, hne]

theorem map_lookup_insert {β : Type*} (f : ν → β) (k' : κ) :
    ((m.insert k v).lookup k').map f = if k' = k then some (f v) else (m.lookup k').map f := by
  rcases eq_or_ne k' k with rfl | hne
  · simp
  · simp [AList.lookup_insert_ne hne, hne]

/-- Replacing an entry by one that `f` does not tell from it. -/
theorem map_lookup_insert_same {β : Type*} {f : ν → β} (h : m.lookup k = some v)
    (hf : f v' = f v) (k' : κ) : ((m.insert k v').lookup k').map f = (m.lookup k').map f := by
  rw [map_lookup_insert, ite_eq_right_iff]
  rintro rfl
  rw [h, hf]
  rfl

theorem lookup_erase_eq_some {k' : κ} :
    (m.erase k).lookup k' = some v ↔ k' ≠ k ∧ m.lookup k' = some v := by
  rcases eq_or_ne k' k with rfl | hne
  · simp
  · simp [AList.lookup_erase_ne hne, hne]

/-- The sum of the weights of all entries. -/
def tally (weight : ν → M) (m : AList fun _ : κ => ν) : M :=
  (m.entries.map fun e => weight e.2).sum

omit [DecidableEq κ] in
@[simp]
theorem tally_empty (weight : ν → M) : tally weight (∅ : AList fun _ : κ => ν) = 0 :=
  rfl

theorem tally_erase (h : m.lookup k = some v) :
    tally weight (m.erase k) = tally weight m - weight v := by
  have hmem : k ∈ m.entries.keys := AList.mem_keys.mp (AList.lookup_isSome.mp (by rw [h]; rfl))
  obtain ⟨v', before, after, hbefore, hsplit, hkerase⟩ := List.exists_of_kerase hmem
  have hv : v' = v := by
    have hlookup : m.entries.dlookup k = some v := h
    have hmem' : (⟨k, v'⟩ : (_ : κ) × ν) ∈ m.entries := by
      rw [hsplit]
      simp
    rw [List.mem_dlookup m.nodupKeys hmem', Option.some_inj] at hlookup
    exact hlookup
  change ((m.entries.kerase k).map fun e => weight e.2).sum = (m.entries.map _).sum - _
  rw [hkerase, hsplit]
  simp only [List.map_append, List.map_cons, List.sum_append, List.sum_cons, hv]
  abel

theorem tally_insert_new (h : k ∉ m) : tally weight (m.insert k v) = tally weight m + weight v := by
  rw [tally, AList.entries_insert_of_notMem h, List.map_cons, List.sum_cons, add_comm]
  rfl

theorem tally_insert_old (h : m.lookup k = some v) :
    tally weight (m.insert k v') = tally weight m - weight v + weight v' := by
  rw [← tally_erase h, add_comm]
  change ((m.entries.kinsert k v').map fun e => weight e.2).sum = _
  rw [List.kinsert_def, List.map_cons, List.sum_cons]
  rfl

theorem tally_insert_same (h : m.lookup k = some v) (hsame : weight v' = weight v) :
    tally weight (m.insert k v') = tally weight m := by
  rw [tally_insert_old h, hsame, sub_add_cancel]

omit [DecidableEq κ] in
theorem tally_of_keys_nil (h : m.keys = []) : tally weight m = 0 := by
  have hentries : m.entries = [] := List.map_eq_nil_iff.mp h
  rw [tally, hentries]
  rfl

omit [DecidableEq κ] in
theorem tally_nonneg {weight : ν → Int} (h : ∀ v, 0 ≤ weight v) : 0 ≤ tally weight m := by
  apply List.sum_nonneg
  intro x hx
  obtain ⟨e, -, rfl⟩ := List.mem_map.mp hx
  exact h e.2

omit [DecidableEq κ] in
theorem tally_eq_countP {weight : ν → Int} {p : ν → Bool}
    (h : ∀ e ∈ m.entries, weight e.2 = (p e.2).toInt) :
    tally weight m = m.entries.countP fun e => p e.2 := by
  rw [tally]
  revert h
  generalize m.entries = es
  intro h
  induction es with
  | nil => rfl
  | cons e es ih =>
    rw [List.map_cons, List.sum_cons, List.countP_cons, h e List.mem_cons_self,
      ih fun e' he' => h e' (List.mem_cons_of_mem _ he')]
    cases p e.2 <;> simp [Bool.toInt, add_comm]

end Tallies

end Verium.Lib
