import Verium.Util.Prevector

/-!
What a `prevector` shows of its elements is the plain list under the same calls, on which storage
they may be. This needs that no argument refers into the vector, and that lengths and positions
fit their types.
-/

namespace Verium.Prevector

open Lib

variable {α : Type}

section Invariant

/-- The vector has room for `n` elements and `_size` says that it has as many, with the offset
exactly when the cells are on the heap. -/
structure Sized (N : Nat) (v : Prevector α) (n : Nat) : Prop where
  room : n ≤ v.union.cells.length
  inline : v.union.isDirect → v.union.cells.length = N
  sizeField : v.sizeField = if v.union.isDirect then n else n + N + 1

/-- The vector holds the list. -/
structure Holds (N : Nat) (v : Prevector α) (xs : List α) : Prop extends
    Sized N v xs.length where
  cells : ∃ rest, v.union.cells = xs.map some ++ rest

variable {N n : Nat} {v : Prevector α} {xs ys : List α}

@[simp]
theorem cells_withCells (union : Storage α) (cells : List (Option α)) :
    (union.withCells cells).cells = cells := by
  cases union <;> rfl

@[simp]
theorem isDirect_withCells (union : Storage α) (cells : List (Option α)) :
    (union.withCells cells).isDirect = union.isDirect := by
  cases union <;> rfl

theorem Sized.isDirect (h : Sized N v n) : v.isDirect N = v.union.isDirect := by
  have hsize := h.sizeField
  have hinline := h.inline
  unfold Prevector.isDirect
  cases hd : v.union.isDirect with
  | true =>
    rw [hd] at hsize hinline
    rw [if_pos rfl] at hsize
    rw [decide_eq_true_eq, ← hinline rfl, hsize]
    exact h.room
  | false =>
    rw [hd, if_neg Bool.false_ne_true] at hsize
    rw [decide_eq_false_iff_not]
    omega

theorem Sized.size (h : Sized N v n) : v.size N = n := by
  have hsize := h.sizeField
  unfold Prevector.size
  rw [h.isDirect]
  split at hsize
  · next hd => rw [if_pos hd, hsize]
  · next hd =>
    rw [if_neg hd, hsize]
    omega

theorem Sized.itemPtr (h : Sized N v n) {pos : Nat} (hpos : pos < 2 ^ 31) :
    v.itemPtr N pos = .ok pos := by
  rw [Prevector.itemPtr, if_neg (by simp [h.isDirect]), if_pos hpos]

theorem Sized.capacity (h : Sized N v n) : v.capacity N = .ok v.union.cells.length := by
  unfold Prevector.capacity
  rw [h.isDirect]
  split
  · next hd => rw [h.inline hd]
  · rfl

theorem Sized.resized (h : Sized N v n) {m sizeField : Nat} {cells : List (Option α)}
    (hlen : cells.length = v.union.cells.length) (hroom : m ≤ v.union.cells.length)
    (hsize : sizeField + n = v.sizeField + m) : Sized N ⟨sizeField, v.union.withCells cells⟩ m := by
  have hold := h.sizeField
  refine ⟨?_, ?_, ?_⟩
  · rw [cells_withCells, hlen]
    exact hroom
  · rw [isDirect_withCells, cells_withCells, hlen]
    exact h.inline
  · rw [isDirect_withCells]
    dsimp only
    split at hold
    · next hd =>
      rw [if_pos hd]
      omega
    · next hd =>
      rw [if_neg hd]
      omega

theorem Holds.sizeField_lt (h : Holds N v xs) (hsmall : Small N xs) : v.sizeField < 2 ^ 32 := by
  have hsize := h.sizeField
  unfold Small at hsmall
  split at hsize <;> omega

theorem Holds.stored (h : Holds N v xs) : v.stored N = .ok (xs.map some) := by
  obtain ⟨rest, hcells⟩ := h.cells
  rw [Prevector.stored, h.itemPtr (by decide), ok_bind, h.size, hcells]
  exact load_left (List.length_map _)

theorem Holds.items (h : Holds N v xs) (hlen : xs.length < 2 ^ 31) : v.items N = .ok xs := by
  obtain ⟨rest, hcells⟩ := h.cells
  have hload : load Stop.outside v.union.cells 0 xs.length = .ok (xs.map some) := by
    rw [hcells]
    exact load_left (List.length_map _)
  rw [Prevector.items, h.size, h.itemPtr hlen, ok_bind, hload, ok_bind, List.mapM_map]
  exact (mapM_eq_ok fun _ _ => rfl).trans (congrArg Except.ok (List.map_id xs))

theorem holds_new (N : Nat) : Holds N (new N) ([] : List α) :=
  ⟨⟨Nat.zero_le _, fun _ => List.length_replicate, rfl⟩, ⟨_, rfl⟩⟩

theorem fill_ok {before range : List α} {cells rest : List (Option α)}
    (hcells : v.union.cells = before.map some ++ (cells ++ rest))
    (hlen : cells.length = range.length) :
    v.fill before.length range = .ok
        { v with union := v.union.withCells (before.map some ++ (range.map some ++ rest)) } ∧
      (before.map some ++ (range.map some ++ rest)).length = v.union.cells.length := by
  have hfit : (range.map some).length ≤ (cells ++ rest).length := by
    simp only [List.length_map, List.length_append]
    omega
  have hstore := @store_append α Stop (before.map some) _ _ .outside _ (List.length_map _) hfit
  rw [← hcells, List.length_map, ← hlen, List.drop_left] at hstore
  rw [fill, hstore]
  exact ⟨rfl, length_store hstore⟩

/-- The elements before and behind the gap are there already, and so is the size. -/
theorem Sized.fill {before range after : List α} {gap rest : List (Option α)}
    (h : Sized N v n) (hn : before.length + range.length + after.length = n)
    (hcells : v.union.cells = before.map some ++ (gap ++ (after.map some ++ rest)))
    (hlen : gap.length = range.length) :
    ∃ v', v.fill before.length range = .ok v' ∧ Holds N v' (before ++ (range ++ after)) := by
  obtain ⟨hfill, hsame⟩ := fill_ok hcells hlen
  have hroom : (before ++ (range ++ after)).length ≤ v.union.cells.length := by
    have hroom := h.room
    simp only [List.length_append]
    omega
  refine ⟨_, hfill, h.resized hsame hroom ?_, ⟨rest, ?_⟩⟩
  · simp only [List.length_append]
    omega
  · rw [cells_withCells]
    simp only [List.map_append, List.append_assoc]

theorem small_nil (h : Small N xs) : Small N ([] : List α) := by
  unfold Small at h ⊢
  rw [List.length_nil]
  omega

theorem wrap_of_lt {n : Nat} (h : n < 2 ^ 32) : wrap n = n :=
  Nat.mod_eq_of_lt h

theorem store_fresh {xs : List α} {n : Nat} (h : xs.length ≤ n) :
    ∃ cells, store Stop.outside (List.replicate n none) 0 (xs.map some) = .ok cells ∧
      cells.length = n ∧ ∃ rest, cells = xs.map some ++ rest := by
  have hfit : (xs.map some).length ≤ (List.replicate n (none : Option α)).length := by simpa
  have hstore := @store_append α Stop [] _ _ .outside 0 rfl hfit
  exact ⟨_, hstore, (length_store hstore).trans List.length_replicate, _, rfl⟩

theorem Holds.changeCapacity (h : Holds N v xs) (hsmall : Small N xs) {n : Nat}
    (hn : xs.length ≤ n) :
    ∃ v', v.changeCapacity N n = .ok v' ∧ Holds N v' xs ∧ n ≤ v'.union.cells.length := by
  have hdirect := h.isDirect
  have hsize := h.sizeField
  unfold Prevector.changeCapacity
  split
  · next hfit =>
    split
    · next hd =>
      refine ⟨v, rfl, h, ?_⟩
      rw [h.inline (hdirect ▸ hd)]
      exact hfit
    · next hd =>
      obtain ⟨cells, hstore, hlen, hcells⟩ := store_fresh (Nat.le_trans hn hfit)
      rw [h.stored, ok_bind, hstore, ok_bind]
      rw [hdirect] at hd
      rw [if_neg hd] at hsize
      refine ⟨_, rfl, ⟨⟨?_, fun _ => hlen, ?_⟩, hcells⟩, ?_⟩
      · exact hlen.symm ▸ Nat.le_trans hn hfit
      · rw [hsize, Nat.add_assoc, Nat.add_sub_cancel]
        rfl
      · exact hlen.symm ▸ hfit
  · next hbig =>
    split
    · next hd =>
      obtain ⟨cells, hstore, hlen, hcells⟩ := store_fresh hn
      rw [h.stored, ok_bind, hstore, ok_bind]
      rw [hdirect] at hd
      rw [if_pos hd] at hsize
      refine ⟨_, rfl, ⟨⟨hlen.symm ▸ hn, (nomatch ·), ?_⟩, hcells⟩, hlen.symm ▸ Nat.le_refl n⟩
      rw [hsize, wrap_of_lt (Nat.add_assoc _ N 1 ▸ hsmall.2)]
      rfl
    · next hd =>
      rw [h.itemPtr (by decide), ok_bind]
      rw [hdirect] at hd
      obtain ⟨rest, hcells⟩ := h.cells
      have hkept : v.union.cells.take n = xs.map some ++ rest.take (n - xs.length) := by
        rw [hcells, List.take_append, List.length_map, List.take_of_length_le (by simpa using hn)]
      rw [List.drop_zero, hkept]
      have hlen : n ≤ ((xs.map some ++ rest.take (n - xs.length)) ++
          List.replicate (n - (xs.map some ++ rest.take (n - xs.length)).length) none).length := by
        rw [List.length_append, List.length_replicate]
        omega
      rw [if_neg hd] at hsize
      exact ⟨_, rfl, ⟨⟨Nat.le_trans hn hlen, (nomatch ·), hsize⟩, ⟨_, List.append_assoc _ _ _⟩⟩,
        hlen⟩

theorem Holds.reserve (h : Holds N v xs) (hsmall : Small N xs) (n : Nat) :
    ∃ v', v.reserve N n = .ok v' ∧ Holds N v' xs ∧ n ≤ v'.union.cells.length := by
  rw [Prevector.reserve, h.capacity, ok_bind]
  split
  · next hlt => exact h.changeCapacity hsmall (Nat.le_trans h.room (Nat.le_of_lt hlt))
  · next hge => exact ⟨v, rfl, h, Nat.le_of_not_lt hge⟩

theorem Holds.grow (h : Holds N v xs) (hsmall : Small N xs) (hn : n < 2 ^ 31) :
    ∃ v' replaced, v.grow N n = .ok (v', replaced) ∧ Holds N v' xs ∧
      n ≤ v'.union.cells.length := by
  rw [Prevector.grow, h.capacity, ok_bind]
  split
  · next hlt =>
    have hroom := h.room
    obtain ⟨v', hchange, hholds, hcap⟩ :=
      h.changeCapacity hsmall (show xs.length ≤ n + n / 2 by omega)
    rw [wrap_of_lt (by omega), hchange]
    exact ⟨v', true, rfl, hholds, by omega⟩
  · next hge => exact ⟨v, false, rfl, h, Nat.le_of_not_lt hge⟩

theorem Holds.eraseRange {before erased after : List α} {first last : Nat}
    (h : Holds N v (before ++ (erased ++ after))) (hsmall : Small N (before ++ (erased ++ after)))
    (hfirst : before.length = first) (hlast : first + erased.length = last) :
    ∃ v', v.eraseRange N first last = .ok v' ∧ Holds N v' (before ++ after) := by
  have hlen : (before ++ (erased ++ after)).length = last + after.length := by
    simp only [List.length_append]
    omega
  obtain ⟨rest, hcells⟩ := h.cells
  have hload : load Stop.outside v.union.cells last after.length = .ok (after.map some) := by
    have hsplit : v.union.cells =
        (before ++ erased).map some ++ (after.map some ++ rest) := by
      simp only [hcells, List.map_append, List.append_assoc]
    rw [hsplit]
    exact load_append (by simp [hfirst, hlast]) (List.length_map _)
  have hfit : (after.map some).length ≤ ((erased ++ after).map some ++ rest).length := by
    simp only [List.length_map, List.length_append]
    omega
  have hstore := @store_append α Stop (before.map some) _ _ .outside first (by simpa) hfit
  rw [← List.append_assoc, ← List.map_append, ← hcells] at hstore
  have hsize : v.sizeField + 2 ^ 32 - (last - first) =
      (v.sizeField - erased.length) + 2 ^ 32 ∧ erased.length ≤ v.sizeField := by
    have hfield := h.sizeField
    rw [hlen] at hfield
    split at hfield <;> omega
  have hlt : v.sizeField < 2 ^ 32 := h.sizeField_lt hsmall
  rw [Prevector.eraseRange, h.size, h.itemPtr hsmall.1, ok_bind, hlen, Nat.add_sub_cancel_left,
    memmove, hload, ok_bind, hstore, ok_bind, hsize.1, wrap, Nat.add_mod_right,
    Nat.mod_eq_of_lt (by omega)]
  refine ⟨_, rfl, h.resized (length_store hstore) ?_ ?_, ?_⟩
  · have hroom := h.room
    simp only [List.length_append] at hroom ⊢
    omega
  · simp only [List.length_append] at hlen ⊢
    omega
  · rw [cells_withCells, @List.map_append _ _ some before after]
    exact ⟨_, (List.append_assoc _ _ _).symm⟩

theorem Holds.erased (h : Holds N v xs) (hsmall : Small N xs) {first last : Nat}
    (hle : first ≤ last) (hlast : last ≤ xs.length) :
    ∃ v', v.eraseRange N first last = .ok v' ∧ Holds N v' (xs.take first ++ xs.drop last) := by
  have hsplit : xs.take first ++ ((xs.drop first).take (last - first) ++ xs.drop last) = xs := by
    rw [← Nat.add_sub_cancel' hle, ← List.drop_drop, Nat.add_sub_cancel_left,
      List.take_append_drop, List.take_append_drop]
  rw [← hsplit] at h hsmall
  apply h.eraseRange hsmall
  · exact List.length_take_of_le (Nat.le_trans hle hlast)
  · rw [List.length_take, List.length_drop]
    omega

/-- After the elements from `p` on have been moved away, the vector has its new size and a gap of
cells in the middle. -/
theorem Holds.openGap {before after : List α} {p count : Nat} (h : Holds N v (before ++ after))
    (hp : before.length = p) (hcount : p + count + after.length < 2 ^ 31)
    (hfield : p + count + after.length + N + 1 < 2 ^ 32) :
    ∃ v' replaced gap rest, v.openGap N p count = .ok (v', replaced, p) ∧
      Sized N v' (p + count + after.length) ∧ gap.length = count ∧
      v'.union.cells = before.map some ++ (gap ++ (after.map some ++ rest)) := by
  have hlen : (before ++ after).length = p + after.length := by
    rw [List.length_append, hp]
  obtain ⟨v', replaced, hgrow, hholds, hcap⟩ := h.grow ⟨by omega, by omega⟩ hcount
  obtain ⟨rest, hcells⟩ := hholds.cells
  rw [List.map_append, List.append_assoc] at hcells
  have hload : load Stop.outside v'.union.cells p after.length = .ok (after.map some) := by
    rw [hcells]
    exact load_append (by simpa) (List.length_map _)
  -- the cells that the gap will be in, and those behind them
  have htotal : v'.union.cells.length = p + (after.map some ++ rest).length := by
    rw [hcells, List.length_append, List.length_map, hp]
  have hgap : ((after.map some ++ rest).take count).length = count := by
    rw [List.length_take]
    omega
  have hsplit : v'.union.cells = (before.map some ++ (after.map some ++ rest).take count) ++
      (after.map some ++ rest).drop count := by
    rw [hcells, List.append_assoc, List.take_append_drop]
  have hfit : (after.map some).length ≤ ((after.map some ++ rest).drop count).length := by
    rw [List.length_map, List.length_drop]
    omega
  have hstore := @store_append α Stop (before.map some ++ (after.map some ++ rest).take count) _ _
    .outside (p + count) (by rw [List.length_append, List.length_map, hgap, hp]) hfit
  rw [← hsplit] at hstore
  have hsum : v'.sizeField + count < 2 ^ 32 := by
    have hold := hholds.sizeField
    rw [hlen] at hold
    split at hold <;> omega
  have hnew : wrap ((before ++ after).length + count) = p + count + after.length := by
    rw [hlen, wrap_of_lt (by omega)]
    omega
  have hmoved : (before ++ after).length - p = after.length := by
    omega
  rw [Prevector.openGap, h.size, hnew, hgrow, ok_bind]
  dsimp only
  rw [hholds.itemPtr (by omega), ok_bind, hholds.size, hmoved, memmove, hload, ok_bind, hstore,
    ok_bind, wrap_of_lt hsum]
  refine ⟨_, replaced, _, ((after.map some ++ rest).drop count).drop (after.map some).length, rfl,
    ?_, hgap, ?_⟩
  · exact hholds.resized (length_store hstore) hcap (by omega)
  · rw [cells_withCells, List.append_assoc]

/-- New elements behind the others. The size may be set before or after them. -/
theorem Holds.append (h : Holds N v xs) {range : List α}
    (hroom : (xs ++ range).length ≤ v.union.cells.length)
    (hfit : (xs ++ range).length + N + 1 < 2 ^ 32) :
    ∃ cells, (∀ sizeField, (⟨sizeField, v.union⟩ : Prevector α).fill xs.length range =
        .ok ⟨sizeField, v.union.withCells cells⟩) ∧
      Holds N ⟨wrap (v.sizeField + range.length), v.union.withCells cells⟩ (xs ++ range) := by
  obtain ⟨rest, hcells⟩ := h.cells
  rw [List.length_append] at hroom
  have hgap : (rest.take range.length).length = range.length := by
    rw [hcells, List.length_append, List.length_map] at hroom
    rw [List.length_take]
    omega
  have hsplit : v.union.cells =
      xs.map some ++ (rest.take range.length ++ rest.drop range.length) := by
    rw [List.take_append_drop]
    exact hcells
  have hsum : v.sizeField + range.length < 2 ^ 32 := by
    have hfield := h.sizeField
    rw [List.length_append] at hfit
    split at hfield <;> omega
  refine ⟨_, fun sizeField => (@fill_ok α ⟨sizeField, v.union⟩ _ _ _ _ hsplit hgap).1, ?_⟩
  rw [wrap_of_lt hsum]
  refine ⟨h.resized (fill_ok hsplit hgap).2 ?_ ?_, ⟨rest.drop range.length, ?_⟩⟩
  · rw [List.length_append]
    exact hroom
  · rw [List.length_append]
    omega
  · rw [cells_withCells, List.map_append, List.append_assoc]

theorem Holds.fillEmpty (h : Holds N v []) {range : List α}
    (hroom : range.length ≤ v.union.cells.length) (hsmall : Small N range) :
    ∃ v', v.fillEmpty N range = .ok v' ∧ Holds N v' range := by
  obtain ⟨cells, hfill, hholds⟩ := h.append hroom hsmall.2
  have hdirect : Prevector.isDirect N ⟨wrap (v.sizeField + range.length), v.union⟩ =
      v.union.isDirect :=
    hholds.isDirect.trans (isDirect_withCells _ _)
  refine ⟨_, ?_, hholds⟩
  rw [Prevector.fillEmpty, Prevector.itemPtr, if_neg (not_not.mpr hdirect), if_pos (by decide)]
  exact hfill _

theorem Holds.resize [Inhabited α] (h : Holds N v xs) (hsmall : Small N xs) (n : Nat)
    (hn : n + N + 1 < 2 ^ 32) :
    ∃ v', v.resize N n = .ok v' ∧
      Holds N v' (xs.take n ++ List.replicate (n - xs.length) default) := by
  rw [Prevector.resize, h.size]
  rcases Nat.lt_trichotomy xs.length n with hlt | heq | hgt
  · rw [List.take_of_length_le (Nat.le_of_lt hlt)]
    rw [if_neg (Nat.ne_of_lt hlt), if_neg (Nat.lt_asymm hlt)]
    obtain ⟨v', hreserve, hholds, hroom⟩ := h.reserve hsmall n
    have hlen : (xs ++ List.replicate (n - xs.length) (default : α)).length = n := by
      rw [List.length_append, List.length_replicate]
      omega
    obtain ⟨cells, hfill, hfilled⟩ := hholds.append (hlen.symm ▸ hroom) (hlen.symm ▸ hn)
    rw [List.length_replicate] at hfilled
    rw [hreserve, ok_bind, hholds.itemPtr hsmall.1, ok_bind, hfill, ok_bind]
    exact ⟨_, rfl, hfilled⟩
  · rw [if_pos heq]
    exact ⟨v, rfl, by simpa [← heq] using h⟩
  · rw [if_neg (Nat.ne_of_gt hgt), if_pos hgt, h.itemPtr (Nat.lt_trans hgt hsmall.1), ok_bind]
    have herased := h.erased hsmall (Nat.le_of_lt hgt) (Nat.le_refl _)
    rw [List.drop_length] at herased
    rwa [Nat.sub_eq_zero_of_le (Nat.le_of_lt hgt)]

theorem Holds.clearFor [Inhabited α] (h : Holds N v xs) (hsmall : Small N xs) (n : Nat) :
    ∃ v' replaced, v.clearFor N n = .ok (v', replaced) ∧ Holds N v' [] ∧
      n ≤ v'.union.cells.length := by
  have hempty : Small N ([] : List α) := small_nil hsmall
  obtain ⟨v₁, hresize, h₁⟩ := h.resize hsmall 0 (Nat.zero_add N ▸ hempty.2)
  replace h₁ : Holds N v₁ [] := by simpa using h₁
  rw [Prevector.clearFor, hresize, ok_bind, h₁.capacity, ok_bind]
  split
  · obtain ⟨v', hchange, hholds, hroom⟩ := h₁.changeCapacity hempty (Nat.zero_le n)
    rw [hchange]
    exact ⟨v', true, rfl, hholds, hroom⟩
  · next hge => exact ⟨v₁, false, rfl, h₁, Nat.le_of_not_lt hge⟩

theorem Holds.assign [Inhabited α] (h : Holds N v xs) (hsmall : Small N xs) {range : List α}
    (hrange : Small N range) : ∃ v', v.assign N range = .ok v' ∧ Holds N v' range := by
  obtain ⟨v₁, replaced, hclear, h₁, hroom⟩ := h.clearFor hsmall range.length
  obtain ⟨v₂, hfill, h₂⟩ := h₁.fillEmpty hroom hrange
  rw [Prevector.assign, hclear, ok_bind]
  exact ⟨v₂, hfill, h₂⟩

theorem holds_ofRange {range : List α} (hrange : Small N range) :
    ∃ v', ofRange N range = .ok v' ∧ Holds N v' range := by
  obtain ⟨v₁, hchange, h₁, hroom⟩ :=
    (holds_new N).changeCapacity (small_nil hrange) (Nat.zero_le range.length)
  obtain ⟨v₂, hfill, h₂⟩ := h₁.fillEmpty hroom hrange
  rw [ofRange, hchange, ok_bind]
  exact ⟨v₂, hfill, h₂⟩

/-- The values come to stand in the gap that `insert` opens. -/
theorem Holds.inserted {range : List α} {pos : Nat} (h : Holds N v xs)
    (hpos : pos ≤ xs.length) (hsmall : Small N (xs.take pos ++ (range ++ xs.drop pos))) :
    ∃ gapped replaced v', v.openGap N pos range.length = .ok (gapped, replaced, pos) ∧
      gapped.itemPtr N pos = .ok pos ∧ gapped.fill pos range = .ok v' ∧
      Holds N v' (xs.take pos ++ (range ++ xs.drop pos)) := by
  have hbefore : (xs.take pos).length = pos := List.length_take_of_le hpos
  have htotal : (xs.take pos ++ (range ++ xs.drop pos)).length =
      pos + range.length + (xs.drop pos).length := by
    rw [List.length_append, List.length_append, hbefore, Nat.add_assoc]
  unfold Small at hsmall
  rw [htotal] at hsmall
  rw [← List.take_append_drop pos xs] at h
  obtain ⟨gapped, replaced, gap, rest, hopen, hsized, hgap, hcells⟩ :=
    h.openGap hbefore hsmall.1 hsmall.2
  have hptr := hsized.itemPtr (show pos < 2 ^ 31 by omega)
  obtain ⟨v', hfill, hholds⟩ := hsized.fill (by rw [hbefore]) hcells hgap
  rw [hbefore] at hfill
  exact ⟨gapped, replaced, v', hopen, hptr, hfill, hholds⟩

theorem Holds.apply [Inhabited α] (h : Holds N v xs) (hsmall : Small N xs) {op : Op α}
    (hvalue : op.ByValue) (hop : op.onList xs = some ys) (hsmall' : Small N ys) :
    ∃ v', op.apply N v = .ok v' ∧ Holds N v' ys := by
  cases op with
  | assign n value =>
    cases value with
    | element i => cases hvalue
    | value a =>
      obtain rfl : List.replicate n a = ys := by simpa [Op.onList, Arg.onList] using hop
      obtain ⟨v₁, replaced, hclear, h₁, hroom⟩ := h.clearFor hsmall n
      obtain ⟨v₂, hfill, h₂⟩ := h₁.fillEmpty (List.length_replicate.symm ▸ hroom) hsmall'
      refine ⟨v₂, ?_, h₂⟩
      rw [Op.apply, Prevector.assignN, hclear, ok_bind]
      exact hfill
  | assignRange range =>
    cases hop
    exact h.assign hsmall hsmall'
  | resize newSize =>
    cases hop
    apply h.resize hsmall
    have hlen : newSize ≤ (xs.take newSize ++
        List.replicate (newSize - xs.length) (default : α)).length := by
      simp only [List.length_append, List.length_take, List.length_replicate]
      omega
    have hfit := hsmall'.2
    omega
  | reserve newCapacity =>
    cases hop
    obtain ⟨v', hreserve, hholds, -⟩ := h.reserve hsmall newCapacity
    exact ⟨v', hreserve, hholds⟩
  | shrinkToFit =>
    cases hop
    obtain ⟨v', hchange, hholds, -⟩ := h.changeCapacity hsmall (Nat.le_refl _)
    rw [← h.size] at hchange
    exact ⟨v', hchange, hholds⟩
  | insert pos value =>
    cases value with
    | element i => cases hvalue
    | value a =>
      obtain ⟨hpos, rfl⟩ : pos ≤ xs.length ∧ xs.take pos ++ a :: xs.drop pos = ys := by
        simpa [Op.onList, Arg.onList] using hop
      obtain ⟨gapped, replaced, v', hopen, -, hfill, hholds⟩ :=
        @Holds.inserted α N v xs [a] pos h hpos hsmall'
      refine ⟨v', ?_, hholds⟩
      rw [Op.apply, Prevector.insert, show 1 = [a].length from rfl, hopen]
      exact hfill
  | insertN pos count value =>
    cases value with
    | element i => cases hvalue
    | value a =>
      obtain ⟨hpos, rfl⟩ : pos ≤ xs.length ∧
          xs.take pos ++ (List.replicate count a ++ xs.drop pos) = ys := by
        simpa [Op.onList, Arg.onList] using hop
      obtain ⟨gapped, replaced, v', hopen, hptr, hfill, hholds⟩ := h.inserted hpos hsmall'
      rw [List.length_replicate] at hopen
      refine ⟨v', ?_, hholds⟩
      rw [Op.apply, Prevector.insertN, hopen, ok_bind]
      dsimp only
      rw [hptr]
      exact hfill
  | insertRange pos range =>
    obtain ⟨hpos, rfl⟩ : pos ≤ xs.length ∧ xs.take pos ++ (range ++ xs.drop pos) = ys := by
      simpa [Op.onList] using hop
    obtain ⟨gapped, replaced, v', hopen, -, hfill, hholds⟩ := h.inserted hpos hsmall'
    refine ⟨v', ?_, hholds⟩
    rw [Op.apply, Prevector.insertRange, hopen]
    exact hfill
  | erase pos =>
    obtain ⟨hpos, rfl⟩ : pos < xs.length ∧ xs.eraseIdx pos = ys := by
      simpa [Op.onList] using hop
    rw [List.eraseIdx_eq_take_drop_succ]
    exact h.erased hsmall (Nat.le_succ pos) hpos
  | eraseRange first last =>
    obtain ⟨⟨hle, hlast⟩, rfl⟩ : (first ≤ last ∧ last ≤ xs.length) ∧
        xs.take first ++ xs.drop last = ys := by
      simpa [Op.onList] using hop
    exact h.erased hsmall hle hlast
  | pushBack value =>
    cases value with
    | element i => cases hvalue
    | value a =>
      obtain rfl : xs ++ [a] = ys := by simpa [Op.onList, Arg.onList] using hop
      have hlen : (xs ++ [a]).length = xs.length + 1 := List.length_append
      have hnew : wrap (xs.length + 1) = xs.length + 1 :=
        wrap_of_lt (Nat.lt_trans (hlen ▸ hsmall'.1) (by decide))
      obtain ⟨grown, replaced, hgrow, hgrown, hroom⟩ := h.grow hsmall (hlen ▸ hsmall'.1)
      obtain ⟨cells, hfill, hholds⟩ := hgrown.append (hlen.symm ▸ hroom) hsmall'.2
      refine ⟨_, ?_, hholds⟩
      rw [Op.apply, Prevector.pushBack, h.size, hnew, hgrow, ok_bind]
      dsimp only
      rw [hgrown.size, hgrown.itemPtr hsmall.1, ok_bind, Arg.read, ok_bind, hfill]
      rfl
  | popBack =>
    obtain ⟨hne, rfl⟩ : xs ≠ [] ∧ xs.dropLast = ys := by
      simpa [Op.onList] using hop
    have hpos := List.length_pos_of_ne_nil hne
    rw [Op.apply, Prevector.popBack, h.size, h.itemPtr hsmall.1, ok_bind, List.dropLast_eq_take]
    have herased := h.erased hsmall (Nat.sub_le xs.length 1) (Nat.le_refl _)
    rwa [List.drop_length, List.append_nil] at herased

end Invariant

section Runs

variable [Inhabited α] {N : Nat}

/-- Runs of plain lists, one for each vector. No argument refers into a vector, and the lists stay
small. -/
inductive ListRun (N : Nat) : List (Command α) → (Nat → List α) → Prop
  | nil : Small N ([] : List α) → ListRun N [] fun _ => []
  | snoc {cmds : List (Command α)} {lists lists' : Nat → List α} {cmd : Command α} :
      ListRun N cmds lists → cmd.ByValue → cmd.onLists lists = some lists' →
      (∀ i, Small N (lists' i)) → ListRun N (cmds ++ [cmd]) lists'

/-- What a user of the vector sees, and that the size field tells the storage. -/
structure Shows (N : Nat) (v : Prevector α) (xs : List α) : Prop where
  items : v.items N = .ok xs
  size : v.size N = xs.length
  capacity : ∃ c, v.capacity N = .ok c ∧ xs.length ≤ c
  storage : v.isDirect N = v.union.isDirect

variable {vs : Nat → Prevector α} {lists lists' : Nat → List α}

omit [Inhabited α] in
theorem holds_update (h : ∀ k, Holds N (vs k) (lists k)) {i : Nat} {v : Prevector α}
    {xs : List α} (hv : Holds N v xs) (k : Nat) :
    Holds N (Function.update vs i v k) (Function.update lists i xs k) := by
  by_cases hk : k = i
  · subst hk
    simpa using hv
  · simpa [hk] using h k

theorem Command.apply_ok (h : ∀ k, Holds N (vs k) (lists k)) (hsmall : ∀ k, Small N (lists k))
    {cmd : Command α} (hvalue : cmd.ByValue) (hcmd : cmd.onLists lists = some lists')
    (hsmall' : ∀ k, Small N (lists' k)) :
    ∃ vs', cmd.apply N vs = .ok vs' ∧ ∀ k, Holds N (vs' k) (lists' k) := by
  cases cmd with
  | call i op =>
    obtain ⟨ys, hop, rfl⟩ := Option.map_eq_some_iff.mp hcmd
    have hys : Small N ys := by simpa using hsmall' i
    obtain ⟨v', happly, hv⟩ := (h i).apply (hsmall i) hvalue hop hys
    rw [Command.apply, happly]
    exact ⟨_, rfl, holds_update h hv⟩
  | copyConstruct i other =>
    cases hcmd
    obtain ⟨v', hcopy, hv⟩ := holds_ofRange (hsmall other)
    rw [Command.apply, (h other).items (hsmall other).1, ok_bind, hcopy]
    exact ⟨_, rfl, holds_update h hv⟩
  | copyAssign i other =>
    cases hcmd
    rw [Command.apply]
    split
    · next hself =>
      subst hself
      rw [Function.update_eq_self]
      exact ⟨vs, rfl, h⟩
    · obtain ⟨v', hassign, hv⟩ := (h i).assign (hsmall i) (hsmall other)
      rw [(h other).items (hsmall other).1, ok_bind, hassign]
      exact ⟨_, rfl, holds_update h hv⟩
  | moveConstruct i other =>
    cases hcmd
    exact ⟨_, rfl, holds_update (holds_update h (holds_new N)) (h other)⟩
  | moveAssign i other =>
    cases hcmd
    exact ⟨_, rfl, holds_update (holds_update h (h i)) (h other)⟩
  | swap i other =>
    cases hcmd
    exact ⟨_, rfl, holds_update (holds_update h (h i)) (h other)⟩

theorem ListRun.holds {cmds : List (Command α)} (h : ListRun N cmds lists) :
    (∀ k, Small N (lists k)) ∧ ∃ vs, cmds.foldlM (Command.apply N) (fun _ => new N) = .ok vs ∧
      ∀ k, Holds N (vs k) (lists k) := by
  induction h with
  | nil hsmall => exact ⟨fun _ => hsmall, _, rfl, fun _ => holds_new N⟩
  | snoc _ hvalue hcmd hsmall' ih =>
    obtain ⟨hsmall, vs, hrun, hholds⟩ := ih
    obtain ⟨vs', happly, hholds'⟩ := Command.apply_ok hholds hsmall hvalue hcmd hsmall'
    exact ⟨hsmall', vs', foldlM_append_eq_ok.mpr ⟨vs, hrun, by simpa using happly⟩, hholds'⟩

/-- In every run of calls whose arguments are values and whose lists stay small, no call fails and
every vector shows the plain list. -/
theorem prevector_refines_list {cmds : List (Command α)} (h : ListRun N cmds lists) :
    ∃ vs, cmds.foldlM (Command.apply N) (fun _ => new N) = .ok vs ∧
      ∀ k, Shows N (vs k) (lists k) := by
  obtain ⟨hsmall, vs, hrun, hholds⟩ := h.holds
  refine ⟨vs, hrun, fun k => ?_⟩
  have hk := hholds k
  exact ⟨hk.items (hsmall k).1, hk.size, ⟨_, hk.capacity, hk.room⟩, hk.isDirect⟩

/-- An element that does not fit the inline storage, and moves to the heap. -/
theorem prevector_refines_list_heap : ∃ vs : Nat → Prevector Nat,
    [Command.call 0 (.pushBack (.value 7))].foldlM (Command.apply 0) (fun _ => new 0) = .ok vs ∧
      Shows 0 (vs 0) [7] ∧ (vs 0).isDirect 0 = false := by
  have hsmall : ∀ k, Small 0 (Function.update (fun _ : Nat => ([] : List Nat)) 0 [7] k) := by
    intro k
    by_cases hk : k = 0
    · subst hk
      exact ⟨by decide, by decide⟩
    · rw [Function.update_of_ne hk]
      exact ⟨by decide, by decide⟩
  have hlists : ListRun 0 [Command.call 0 (.pushBack (.value 7))]
      (Function.update (fun _ => []) 0 [7]) :=
    .snoc (.nil ⟨by decide, by decide⟩) trivial rfl hsmall
  obtain ⟨vs, hrun, hshows⟩ := prevector_refines_list hlists
  refine ⟨vs, hrun, hshows 0, ?_⟩
  cases hrun
  decide

theorem items_resize_of_le {n : Nat} (hn : 2 ^ 31 ≤ n) (hfit : n + N + 1 < 2 ^ 32) :
    ((new N).resize N n >>= fun v : Prevector α => v.items N) = .error .position := by
  have hempty : Small N ([] : List α) := ⟨Nat.two_pow_pos 31, Nat.lt_of_le_of_lt (by simp) hfit⟩
  obtain ⟨v, hresize, hv⟩ := (holds_new N).resize hempty n hfit
  have hsize : v.size N = n := by
    rw [hv.size]
    simp
  rw [hresize, ok_bind, items, hsize, itemPtr, if_neg (by simp [hv.isDirect]),
    if_neg (Nat.not_lt.mpr hn), error_bind]

/-- A value that refers to an element is read when this has moved already, or when its storage
is gone, and a vector of `2 ^ 31` elements has an `end()` before its `begin()`. -/
theorem insert_of_own_element :
    ([Command.call 0 (.pushBack (.value 1)), .call 0 (.pushBack (.value 2)),
        .call 0 (.insert 0 (.element 1))].foldlM (Command.apply 3) (fun _ => new 3) >>=
      fun vs => (vs 0).items 3) = .ok [1, 1, 2] ∧
    ([Command.call 0 (.pushBack (.value 1)), .call 0 (.pushBack (.value 2)),
        .call 0 (.insert 0 (.element 1))].foldlM Command.onLists (fun _ => [])).map (· 0) =
      some [2, 1, 2] ∧
    [Command.call 0 (.assignRange [1, 2, 3]), .call 0 (.assign 5 (.element 0))].foldlM
      (Command.apply 3) (fun _ => new 3) = .error .dangling ∧
    ([Command.call 0 (.assignRange [1, 2, 3]), .call 0 (.assign 5 (.element 0))].foldlM
      Command.onLists (fun _ => [])).map (· 0) = some [1, 1, 1, 1, 1] ∧
    ((new 3).resize 3 (2 ^ 31) >>= fun v : Prevector Nat => v.items 3) = .error .position := by
  exact ⟨rfl, rfl, rfl, rfl, items_resize_of_le (Nat.le_refl _) (by decide)⟩

end Runs

end Verium.Prevector
