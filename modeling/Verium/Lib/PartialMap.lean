import Mathlib.Algebra.BigOperators.Finprod

/-!
Partial maps as functions into `Option`: removing a list of keys, writing a list of entries,
mixing both, and the total of a measure over the values of a map with finitely many entries.
-/

namespace Verium.Lib

open Function

variable {κ ν : Type*} [DecidableEq κ]

def eraseAll (m : κ → Option ν) (keys : List κ) : κ → Option ν :=
  keys.foldl (fun m k => update m k none) m

def insertAll (m : κ → Option ν) (entries : List (κ × ν)) : κ → Option ν :=
  entries.foldl (fun m e => update m e.1 (some e.2)) m

section Lookup

variable {m : κ → Option ν} {k : κ}

@[simp]
theorem eraseAll_nil (m : κ → Option ν) : eraseAll m [] = m :=
  rfl

theorem eraseAll_cons (m : κ → Option ν) (k : κ) (keys : List κ) :
    eraseAll m (k :: keys) = eraseAll (update m k none) keys :=
  rfl

@[simp]
theorem insertAll_nil (m : κ → Option ν) : insertAll m [] = m :=
  rfl

theorem insertAll_cons (m : κ → Option ν) (e : κ × ν) (entries : List (κ × ν)) :
    insertAll m (e :: entries) = insertAll (update m e.1 (some e.2)) entries :=
  rfl

theorem eraseAll_apply (m : κ → Option ν) (keys : List κ) (k : κ) :
    eraseAll m keys k = if k ∈ keys then none else m k := by
  induction keys generalizing m with
  | nil => simp
  | cons j rest ih =>
      rw [eraseAll_cons, ih, update_apply]
      by_cases hkj : k = j
      · simp [hkj]
      · simp [hkj]

theorem eraseAll_eq_some {keys : List κ} {v : ν} (h : eraseAll m keys k = some v) :
    m k = some v := by
  rw [eraseAll_apply] at h
  split at h
  · cases h
  · exact h

theorem insertAll_of_notMem {entries : List (κ × ν)} (h : k ∉ entries.map Prod.fst) :
    insertAll m entries k = m k := by
  induction entries generalizing m with
  | nil => rfl
  | cons e rest ih =>
      rw [List.map_cons, List.mem_cons, not_or] at h
      rw [insertAll_cons, ih h.2, update_of_ne h.1]

theorem insertAll_eq_some {entries : List (κ × ν)} {v : ν}
    (h : insertAll m entries k = some v) : m k = some v ∨ (k, v) ∈ entries := by
  induction entries generalizing m with
  | nil => exact .inl h
  | cons e rest ih =>
      rw [insertAll_cons] at h
      rcases ih h with hfound | hmem
      · by_cases hk : k = e.1
        · subst hk
          rw [update_self, Option.some_inj] at hfound
          subst hfound
          exact .inr List.mem_cons_self
        · rw [update_of_ne hk] at hfound
          exact .inl hfound
      · exact .inr (List.mem_cons_of_mem e hmem)

theorem insertAll_eq_none {entries : List (κ × ν)} (h : insertAll m entries k = none) :
    m k = none := by
  induction entries generalizing m with
  | nil => exact h
  | cons e rest ih =>
      rw [insertAll_cons] at h
      have hnone := ih h
      by_cases hk : k = e.1
      · subst hk
        rw [update_self] at hnone
        cases hnone
      · rwa [update_of_ne hk] at hnone

end Lookup

section Writes

/-- Write values, or their absence, one after the other. -/
def writeAll (m : κ → Option ν) (writes : List (κ × Option ν)) : κ → Option ν :=
  writes.foldl (fun m w => update m w.1 w.2) m

variable {m m' : κ → Option ν} {k : κ} {writes : List (κ × Option ν)}

@[simp]
theorem writeAll_nil (m : κ → Option ν) : writeAll m [] = m :=
  rfl

theorem writeAll_cons (m : κ → Option ν) (w : κ × Option ν) (writes : List (κ × Option ν)) :
    writeAll m (w :: writes) = writeAll (update m w.1 w.2) writes :=
  rfl

theorem writeAll_append (m : κ → Option ν) (writes later : List (κ × Option ν)) :
    writeAll m (writes ++ later) = writeAll (writeAll m writes) later :=
  List.foldl_append

/-- The last write to a key decides; what was there before shows only where nothing is
written. -/
theorem writeAll_congr (h : k ∈ writes.map Prod.fst ∨ m k = m' k) :
    writeAll m writes k = writeAll m' writes k := by
  induction writes generalizing m m' with
  | nil => simpa using h
  | cons w rest ih =>
    rw [writeAll_cons, writeAll_cons]
    apply ih
    by_cases hk : k = w.1
    · right
      rw [hk, update_self, update_self]
    · rw [List.map_cons, List.mem_cons, or_iff_right hk] at h
      rw [update_of_ne hk, update_of_ne hk]
      exact h

theorem writeAll_of_notMem (h : k ∉ writes.map Prod.fst) : writeAll m writes k = m k := by
  induction writes generalizing m with
  | nil => rfl
  | cons w rest ih =>
    rw [List.map_cons, List.mem_cons, not_or] at h
    rw [writeAll_cons, ih h.2, update_of_ne h.1]

theorem writeAll_of_forall {v : Option ν} (hall : ∀ w ∈ writes, w.1 = k → w.2 = v)
    (h : k ∈ writes.map Prod.fst ∨ m k = v) : writeAll m writes k = v := by
  induction writes generalizing m with
  | nil => simpa using h
  | cons w rest ih =>
    rw [List.forall_mem_cons] at hall
    rw [writeAll_cons]
    apply ih hall.2
    rcases eq_or_ne k w.1 with rfl | hne
    · exact .inr (by rw [update_self, hall.1 rfl])
    · rw [List.map_cons, List.mem_cons, or_iff_right hne] at h
      rwa [update_of_ne hne]

theorem writeAll_of_mem {v : Option ν} (hkeys : (writes.map Prod.fst).Nodup)
    (h : (k, v) ∈ writes) : writeAll m writes k = v := by
  refine writeAll_of_forall ?_ (.inl (List.mem_map_of_mem h))
  rintro w hw rfl
  exact congrArg Prod.snd (List.inj_on_of_nodup_map hkeys hw h rfl)

theorem writeAll_none {μ : Type*} (m : κ → Option ν) (entries : List (κ × μ)) (k : κ) :
    writeAll m (entries.map fun e => (e.1, none)) k =
      if k ∈ entries.map Prod.fst then none else m k := by
  have hkeys : (entries.map fun e => (e.1, (none : Option ν))).map Prod.fst =
      entries.map Prod.fst := by
    rw [List.map_map]
    rfl
  split
  next hmem =>
    refine writeAll_of_forall ?_ (.inl (hkeys ▸ hmem))
    intro w hw _
    obtain ⟨e, -, rfl⟩ := List.mem_map.mp hw
    rfl
  next hmem => exact writeAll_of_notMem (hkeys ▸ hmem)

theorem eraseAll_eq_writeAll (m : κ → Option ν) (keys : List κ) :
    eraseAll m keys = writeAll m (keys.map fun k => (k, none)) := by
  rw [eraseAll, writeAll, List.foldl_map]

theorem insertAll_eq_writeAll (m : κ → Option ν) (entries : List (κ × ν)) :
    insertAll m entries = writeAll m (entries.map fun e => (e.1, some e.2)) := by
  rw [insertAll, writeAll, List.foldl_map]

theorem insertAll_of_mem {entries : List (κ × ν)} (hkeys : (entries.map Prod.fst).Nodup)
    {e : κ × ν} (h : e ∈ entries) : insertAll m entries e.1 = some e.2 := by
  rw [insertAll_eq_writeAll]
  refine writeAll_of_mem ?_ (List.mem_map_of_mem h)
  rw [List.map_map]
  exact hkeys

end Writes

section Total

variable (value : ν → ℤ) {m : κ → Option ν}

/-- The map has finitely many entries. -/
def FiniteEntries (m : κ → Option ν) : Prop :=
  {k | m k ≠ none}.Finite

/-- The sum of a measure over all entries. -/
noncomputable def total (m : κ → Option ν) : ℤ :=
  finsum fun k => (m k).elim 0 value

omit [DecidableEq κ] in
theorem FiniteEntries.support (h : FiniteEntries m) :
    (support fun k => (m k).elim 0 value).Finite := by
  refine Set.Finite.subset h ?_
  intro k hk hnone
  simp [hnone] at hk

theorem FiniteEntries.update (h : FiniteEntries m) (k : κ) (v : Option ν) :
    FiniteEntries (update m k v) := by
  refine Set.Finite.subset (h.insert k) ?_
  intro j hj
  by_cases hjk : j = k
  · exact Set.mem_insert_iff.mpr (.inl hjk)
  · have hmem : m j ≠ none := by simpa [hjk] using hj
    exact Set.mem_insert_of_mem k hmem

theorem total_update (h : FiniteEntries m) (k : κ) (v : Option ν) :
    total value (update m k v) =
      total value m - (m k).elim 0 value + v.elim 0 value := by
  let change : κ → ℤ := fun j => if j = k then v.elim 0 value - (m k).elim 0 value else 0
  have hsplit : (fun j => (update m k v j).elim 0 value) =
      fun j => (m j).elim 0 value + change j := by
    funext j
    by_cases hjk : j = k
    · subst hjk
      simp [change]
    · simp [change, hjk]
  have hsupport : (support change).Finite := by
    refine Set.Finite.subset (Set.finite_singleton k) ?_
    intro j hj
    by_contra hjk
    exact hj (if_neg hjk)
  have hchange : finsum change = v.elim 0 value - (m k).elim 0 value := by
    rw [finsum_eq_single change k (fun j hj => if_neg hj)]
    exact if_pos rfl
  rw [total, hsplit, finsum_add_distrib (h.support value) hsupport, hchange, ← total]
  ring

omit [DecidableEq κ] in
theorem total_nonneg (h : ∀ k v, m k = some v → 0 ≤ value v) : 0 ≤ total value m := by
  refine finsum_nonneg fun k => ?_
  cases hk : m k with
  | none => exact le_refl 0
  | some v => exact h k v hk

omit [DecidableEq κ] in
@[simp]
theorem total_empty : total value (fun _ : κ => none) = 0 := by
  simp [total]

theorem FiniteEntries.eraseAll (h : FiniteEntries m) (keys : List κ) :
    FiniteEntries (eraseAll m keys) := by
  induction keys generalizing m with
  | nil => exact h
  | cons k rest ih => exact ih (h.update k none)

theorem FiniteEntries.insertAll (h : FiniteEntries m) (entries : List (κ × ν)) :
    FiniteEntries (insertAll m entries) := by
  induction entries generalizing m with
  | nil => exact h
  | cons e rest ih => exact ih (h.update e.1 (some e.2))

theorem total_eraseAll (h : FiniteEntries m) {keys : List κ} (hkeys : keys.Nodup) :
    total value (eraseAll m keys) = total value m - ((keys.filterMap m).map value).sum := by
  induction keys generalizing m with
  | nil => simp
  | cons k rest ih =>
      rw [List.nodup_cons] at hkeys
      -- the later keys are not the one just removed, so they find what `m` has
      have hrest : rest.filterMap (update m k none) = rest.filterMap m := by
        refine List.filterMap_congr ?_
        intro j hj
        rw [update_of_ne]
        rintro rfl
        exact hkeys.1 hj
      rw [eraseAll_cons, ih (h.update k none) hkeys.2, hrest, total_update value h]
      cases hk : m k with
      | none => simp [hk]
      | some v =>
        simp only [List.filterMap_cons, hk, Option.elim_some, Option.elim_none, List.map_cons,
          List.sum_cons]
        ring

theorem total_insertAll (h : FiniteEntries m) {entries : List (κ × ν)}
    (hkeys : (entries.map Prod.fst).Nodup) (hnew : ∀ e ∈ entries, m e.1 = none) :
    total value (insertAll m entries) =
      total value m + (entries.map fun e => value e.2).sum := by
  induction entries generalizing m with
  | nil => simp
  | cons e rest ih =>
      rw [List.map_cons, List.nodup_cons] at hkeys
      have hrest : ∀ e' ∈ rest, update m e.1 (some e.2) e'.1 = none := by
        intro e' he'
        rw [update_of_ne]
        · exact hnew e' (List.mem_cons_of_mem e he')
        · intro heq
          exact hkeys.1 (heq ▸ List.mem_map_of_mem he')
      rw [insertAll_cons, ih (h.update e.1 (some e.2)) hkeys.2 hrest, total_update value h,
        hnew e List.mem_cons_self]
      simp only [Option.elim_none, Option.elim_some, List.map_cons, List.sum_cons]
      ring

end Total

end Verium.Lib
