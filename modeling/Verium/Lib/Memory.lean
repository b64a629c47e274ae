import Mathlib.Data.List.Pairwise
import Mathlib.Order.Nat
import Verium.Lib.Outcome

/-!
Memory and files as lists. A block of memory is a list of cells, with bounds-checked copies into it
and out of it; a cell that was not written to yet holds `none`. A vector used as a stack has its
top at the end: `storage` takes a stack written top first to the vector that holds it, and the
lemmas say what each vector operation does to the stack. Files that only grow hand out extents,
listed with the newest first.
-/

namespace Verium.Lib

section Cells

variable {α ε : Type} {cells before after part new : List (Option α)} {outside : ε}

/-- Copy `count` cells out of the block, or fail with `outside`. -/
def load (outside : ε) (cells : List (Option α)) (pos count : Nat) : Except ε (List (Option α)) :=
  if pos + count ≤ cells.length then .ok ((cells.drop pos).take count) else .error outside

/-- Copy cells into the block, or fail with `outside`. -/
def store (outside : ε) (cells : List (Option α)) (pos : Nat) (new : List (Option α)) :
    Except ε (List (Option α)) :=
  if pos + new.length ≤ cells.length then
    .ok (cells.take pos ++ (new ++ cells.drop (pos + new.length)))
  else .error outside

/-- A copy inside the block, which may overlap its source. -/
def memmove (outside : ε) (cells : List (Option α)) (dst src count : Nat) :
    Except ε (List (Option α)) := do
  let moved ← load outside cells src count
  store outside cells dst moved

theorem load_append {pos count : Nat} (hpos : before.length = pos) (hcount : part.length = count) :
    load outside (before ++ (part ++ after)) pos count = .ok part := by
  subst hpos hcount
  rw [load, if_pos (by simp), List.drop_left, List.take_left]

theorem load_left {count : Nat} (hcount : part.length = count) :
    load outside (part ++ after) 0 count = .ok part :=
  @load_append α ε [] after part outside 0 count rfl hcount

theorem store_append {pos : Nat} (hpos : before.length = pos) (hfit : new.length ≤ after.length) :
    store outside (before ++ after) pos new =
      .ok (before ++ (new ++ after.drop new.length)) := by
  subst hpos
  rw [store, if_pos (by simp [hfit]), List.take_left, List.drop_append]
  simp

theorem length_store {pos : Nat} {cells' : List (Option α)}
    (h : store outside cells pos new = .ok cells') : cells'.length = cells.length := by
  unfold store at h
  split at h
  · cases h
    simp only [List.length_append, List.length_take, List.length_drop]
    omega
  · cases h

end Cells

section Stacks

variable {α : Type}

/-- The vector that holds a stack given top first. -/
def storage (l : List α) : List α :=
  l.reverse

/-- `v.push_back(x)`. -/
def pushBack (v : List α) (x : α) : List α :=
  v ++ [x]

/-- The index of `v.end() - k`, where there is an element. -/
def indexFromEnd? (v : List α) (k : Int) : Option Nat :=
  if 0 < k ∧ k ≤ v.length then some (v.length - k.toNat) else none

/-- `v.at(v.size() - k)`. -/
def atFromEnd? (v : List α) (k : Int) : Option α :=
  (indexFromEnd? v k).bind fun i => v[i]?

/-- `v.at(v.size() - k) = x`. -/
def setFromEnd? (v : List α) (k : Int) (x : α) : Option (List α) :=
  (indexFromEnd? v k).map fun i => v.set i x

/-- `v.pop_back()`, which needs an element. -/
def popBack? (v : List α) : Option (List α) :=
  if v.isEmpty then none else some v.dropLast

/-- `v.erase(v.end() - k)`. -/
def eraseFromEnd? (v : List α) (k : Int) : Option (List α) :=
  (indexFromEnd? v k).map fun i => v.eraseIdx i

/-- `v.erase(v.end() - k, v.end() - j)`. -/
def eraseRangeFromEnd? (v : List α) (k j : Nat) : Option (List α) :=
  if j ≤ k ∧ k ≤ v.length then some (v.take (v.length - k) ++ v.drop (v.length - j)) else none

/-- `v.insert(v.end() - k, x)`. -/
def insertFromEnd? (v : List α) (k : Nat) (x : α) : Option (List α) :=
  if k ≤ v.length then some (v.take (v.length - k) ++ x :: v.drop (v.length - k)) else none

section Storage

variable {l : List α} {x y : α} {k : Int} {n : Nat}

@[simp]
theorem storage_nil : storage ([] : List α) = [] :=
  rfl

@[simp]
theorem length_storage : (storage l).length = l.length :=
  List.length_reverse

@[simp]
theorem storage_eq_nil_iff : storage l = [] ↔ l = [] :=
  List.reverse_eq_nil_iff

@[simp]
theorem mem_storage : x ∈ storage l ↔ x ∈ l :=
  List.mem_reverse

@[simp]
theorem pushBack_storage : pushBack (storage l) x = storage (x :: l) :=
  List.reverse_cons.symm

@[simp]
theorem popBack?_storage_cons : popBack? (storage (x :: l)) = some (storage l) := by
  simp [popBack?, storage]

theorem indexFromEnd?_storage (hn : n < l.length) :
    indexFromEnd? (storage l) (n + 1) = some (l.length - 1 - n) := by
  rw [indexFromEnd?, length_storage, if_pos (by omega)]
  congr 1
  omega

theorem indexFromEnd?_storage_of_le (hn : l.length ≤ n) :
    indexFromEnd? (storage l) (n + 1) = none := by
  rw [indexFromEnd?, length_storage, if_neg (by omega)]

theorem exists_split (hn : n < l.length) :
    ∃ top y bottom, l = top ++ y :: bottom ∧ n = top.length ∧
      storage l = storage bottom ++ y :: storage top ∧
      l.length - 1 - n = (storage bottom).length := by
  refine ⟨l.take n, l[n], l.drop (n + 1), ?_, ?_, ?_, ?_⟩
  · rw [← List.drop_eq_getElem_cons hn, List.take_append_drop]
  · rw [List.length_take, Nat.min_eq_left (Nat.le_of_lt hn)]
  · conv_lhs => rw [← List.take_append_drop n l, List.drop_eq_getElem_cons hn]
    simp [storage]
  · rw [length_storage, List.length_drop]
    omega

theorem getElem?_storage (hn : n < l.length) : (storage l)[l.length - 1 - n]? = l[n]? := by
  obtain ⟨top, y, bottom, rfl, rfl, hstorage, hindex⟩ := exists_split hn
  rw [hindex, hstorage]
  simp

theorem set_storage (hn : n < l.length) :
    (storage l).set (l.length - 1 - n) x = storage (l.set n x) := by
  obtain ⟨top, y, bottom, rfl, rfl, hstorage, hindex⟩ := exists_split hn
  rw [hindex, hstorage]
  simp [storage]

theorem eraseIdx_storage (hn : n < l.length) :
    (storage l).eraseIdx (l.length - 1 - n) = storage (l.eraseIdx n) := by
  obtain ⟨top, y, bottom, rfl, rfl, hstorage, hindex⟩ := exists_split hn
  rw [hindex, hstorage, List.eraseIdx_append_of_length_le (Nat.le_refl _),
    List.eraseIdx_append_of_length_le (Nat.le_refl _)]
  simp [storage]

/-- An operation at a position counted from the end acts at that depth of the stack. -/
theorem bind_indexFromEnd?_storage {β : Type} (f g : Nat → Option β)
    (h : ∀ n, n < l.length → f (l.length - 1 - n) = g n) :
    (indexFromEnd? (storage l) k).bind f =
      if 0 < k then (l[(k - 1).toNat]?).bind fun _ => g (k - 1).toNat else none := by
  by_cases hpos : 0 < k
  · obtain ⟨n, rfl⟩ : ∃ n : Nat, k = n + 1 := ⟨(k - 1).toNat, by omega⟩
    rw [if_pos hpos, Int.add_sub_cancel, Int.toNat_natCast]
    by_cases hn : n < l.length
    · rw [indexFromEnd?_storage hn, Option.bind_some, h n hn, List.getElem?_eq_getElem hn,
        Option.bind_some]
    · rw [indexFromEnd?_storage_of_le (Nat.le_of_not_lt hn),
        List.getElem?_eq_none (Nat.le_of_not_lt hn)]
      rfl
  · rw [if_neg hpos, indexFromEnd?, if_neg (by omega)]
    rfl

@[simp]
theorem atFromEnd?_storage :
    atFromEnd? (storage l) k = if 0 < k then l[(k - 1).toNat]? else none := by
  rw [atFromEnd?, bind_indexFromEnd?_storage _ (fun n => l[n]?) fun n hn => getElem?_storage hn]
  cases l[(k - 1).toNat]? <;> rfl

@[simp]
theorem setFromEnd?_storage :
    setFromEnd? (storage l) k x =
      if 0 < k then (l[(k - 1).toNat]?).bind fun _ => some (storage (l.set (k - 1).toNat x))
      else none := by
  rw [setFromEnd?, Option.map_eq_bind]
  refine bind_indexFromEnd?_storage _ (fun n => some (storage (l.set n x))) fun n hn => ?_
  exact congrArg some (set_storage hn)

@[simp]
theorem eraseFromEnd?_storage :
    eraseFromEnd? (storage l) k =
      if 0 < k then (l[(k - 1).toNat]?).bind fun _ => some (storage (l.eraseIdx (k - 1).toNat))
      else none := by
  rw [eraseFromEnd?, Option.map_eq_bind]
  refine bind_indexFromEnd?_storage _ (fun n => some (storage (l.eraseIdx n))) fun n hn => ?_
  exact congrArg some (eraseIdx_storage hn)

variable {top middle bottom : List α}

theorem storage_append : storage (top ++ bottom) = storage bottom ++ storage top :=
  List.reverse_append

theorem eraseRangeFromEnd?_storage (top middle bottom : List α) :
    eraseRangeFromEnd? (storage (top ++ (middle ++ bottom))) (top.length + middle.length)
      top.length = some (storage (top ++ bottom)) := by
  simp only [storage_append]
  rw [eraseRangeFromEnd?, if_pos (by simp; omega), List.append_assoc]
  congr 1
  congr 1
  · rw [List.take_append_of_le_length (by simp; omega), List.take_of_length_le (by simp; omega)]
  · rw [← List.append_assoc, List.drop_left']
    simp
    omega

theorem insertFromEnd?_storage (top bottom : List α) (x : α) :
    insertFromEnd? (storage (top ++ bottom)) top.length x =
      some (storage (top ++ x :: bottom)) := by
  have hindex : (storage (top ++ bottom)).length - top.length = (storage bottom).length := by
    simp
  rw [insertFromEnd?, if_pos (by simp), hindex, storage_append, List.take_left, List.drop_left,
    storage_append]
  simp [storage]

end Storage

end Stacks

section Extents

variable {κ : Type*}

/-- A range of bytes of a file, which has been written or only found there. -/
structure Extent (κ : Type*) where
  file : κ
  start : Nat
  stop : Nat
  written : Bool
deriving DecidableEq, Repr

/-- The extents lie below the sizes, and what was written lies after everything that was in the file
before. -/
structure Laid (size : κ → Nat) (extents : List (Extent κ)) : Prop where
  below : ∀ r ∈ extents, r.stop ≤ size r.file
  after : extents.Pairwise fun later earlier =>
    later.written = true → later.file = earlier.file → earlier.stop ≤ later.start

namespace Laid

variable {size size' : κ → Nat} {extents : List (Extent κ)} {file : κ} {start stop : Nat}

theorem nil (size : κ → Nat) : Laid size [] :=
  ⟨fun _ hr => absurd hr List.not_mem_nil, .nil⟩

theorem grow (h : Laid size extents) (hle : ∀ k, size k ≤ size' k) : Laid size' extents :=
  ⟨fun r hr => (h.below r hr).trans (hle r.file), h.after⟩

theorem append (h : Laid size extents) (hle : ∀ k, size k ≤ size' k) (hstart : size file ≤ start)
    (hstop : stop ≤ size' file) : Laid size' (⟨file, start, stop, true⟩ :: extents) := by
  refine ⟨List.forall_mem_cons.mpr ⟨hstop, (h.grow hle).below⟩, .cons ?_ h.after⟩
  rintro r hr - rfl
  exact (h.below r hr).trans hstart

theorem find (h : Laid size extents) (hle : ∀ k, size k ≤ size' k) (hstop : stop ≤ size' file) :
    Laid size' (⟨file, start, stop, false⟩ :: extents) := by
  refine ⟨List.forall_mem_cons.mpr ⟨hstop, (h.grow hle).below⟩, .cons ?_ h.after⟩
  intro r _ hwritten
  cases hwritten

theorem drop (h : Laid size extents) (dropped : κ → Bool)
    (hle : ∀ k, dropped k = false → size k ≤ size' k) :
    Laid size' (extents.filter fun r => !dropped r.file) := by
  refine ⟨?_, h.after.filter _⟩
  intro r hr
  obtain ⟨hmem, hkept⟩ := List.mem_filter.mp hr
  exact (h.below r hmem).trans (hle r.file (by simpa using hkept))

/-- Two extents of one file, of which the newer one was written, have no byte in common. -/
theorem disjoint (h : Laid size extents) :
    extents.Pairwise fun later earlier => later.written = true → later.file = earlier.file →
      ∀ byte, ¬ (later.start ≤ byte ∧ byte < later.stop ∧
        earlier.start ≤ byte ∧ byte < earlier.stop) := by
  refine h.after.imp ?_
  intro later earlier hafter hwritten hfile byte hbyte
  have hle := hafter hwritten hfile
  omega

end Laid

end Extents

end Verium.Lib
