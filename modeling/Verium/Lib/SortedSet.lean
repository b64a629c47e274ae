import Mathlib.Algebra.BigOperators.Group.Finset.Basic
import Mathlib.Data.List.Sort
import Mathlib.Data.Finset.Basic

/-!
Finite sets that are walked in increasing order of a key, as `std::set` is. A set is the list of
its elements in that order, so two sets with the same elements are equal.
-/

namespace Verium.Lib

variable {α : Type} {key : α ↪ Nat}

/-- The elements in increasing order of their keys. -/
structure SortedSet (key : α ↪ Nat) where
  elems : List α
  sorted : elems.Pairwise fun a b => key a < key b

namespace SortedSet

instance : Membership α (SortedSet key) where
  mem s a := a ∈ s.elems

instance : EmptyCollection (SortedSet key) where
  emptyCollection := ⟨[], List.Pairwise.nil⟩

instance [DecidableEq α] (s : SortedSet key) (a : α) : Decidable (a ∈ s) :=
  inferInstanceAs (Decidable (a ∈ s.elems))

instance [DecidableEq α] : DecidableEq (SortedSet key) := fun s t =>
  decidable_of_iff (s.elems = t.elems) (by cases s; cases t; simp)

theorem mem_elems {s : SortedSet key} {a : α} : a ∈ s.elems ↔ a ∈ s :=
  Iff.rfl

@[simp]
theorem notMem_empty (a : α) : a ∉ (∅ : SortedSet key) :=
  List.not_mem_nil

theorem nodup (s : SortedSet key) : s.elems.Nodup :=
  s.sorted.imp fun hlt heq => absurd (congrArg key heq) hlt.ne

/-- Put an element in its place, unless it is there. -/
def insertElem (key : α ↪ Nat) (a : α) : List α → List α
  | [] => [a]
  | b :: rest =>
      if key a < key b then a :: b :: rest
      else if key a = key b then b :: rest
      else b :: insertElem key a rest

theorem mem_insertElem {a b : α} {l : List α} : b ∈ insertElem key a l ↔ b = a ∨ b ∈ l := by
  induction l with
  | nil => simp [insertElem]
  | cons c rest ih =>
    unfold insertElem
    split
    · simp
    · split
      next heq =>
        obtain rfl := key.injective heq
        simp
      next =>
        rw [List.mem_cons, ih, List.mem_cons]
        tauto

theorem sorted_insertElem {a : α} {l : List α} (h : l.Pairwise fun a b => key a < key b) :
    (insertElem key a l).Pairwise fun a b => key a < key b := by
  induction l with
  | nil => simp [insertElem]
  | cons c rest ih =>
    obtain ⟨hfirst, hrest⟩ := List.pairwise_cons.mp h
    unfold insertElem
    split
    next hlt =>
      refine List.pairwise_cons.mpr ⟨fun b hb => ?_, h⟩
      rcases List.mem_cons.mp hb with rfl | hb
      · exact hlt
      · exact lt_trans hlt (hfirst b hb)
    next hnot =>
      split
      next => exact h
      next hne =>
        refine List.pairwise_cons.mpr ⟨fun b hb => ?_, ih hrest⟩
        rcases mem_insertElem.mp hb with rfl | hb
        · omega
        · exact hfirst b hb

def insert (a : α) (s : SortedSet key) : SortedSet key :=
  ⟨insertElem key a s.elems, sorted_insertElem s.sorted⟩

@[simp]
theorem mem_insert {a b : α} {s : SortedSet key} : b ∈ s.insert a ↔ b = a ∨ b ∈ s :=
  mem_insertElem

def singleton (a : α) : SortedSet key :=
  (∅ : SortedSet key).insert a

def insertMany (l : List α) (s : SortedSet key) : SortedSet key :=
  l.foldl (fun s a => s.insert a) s

@[simp]
theorem mem_insertMany {l : List α} {s : SortedSet key} {b : α} :
    b ∈ s.insertMany l ↔ b ∈ l ∨ b ∈ s := by
  induction l generalizing s with
  | nil => simp [insertMany]
  | cons a rest ih =>
    change b ∈ (s.insert a).insertMany rest ↔ _
    rw [ih, mem_insert, List.mem_cons]
    tauto

def ofList (l : List α) : SortedSet key :=
  (∅ : SortedSet key).insertMany l

@[simp]
theorem mem_ofList {l : List α} {b : α} : b ∈ (ofList l : SortedSet key) ↔ b ∈ l := by
  simp [ofList]

section Erase

variable [DecidableEq α]

def filter (p : α → Bool) (s : SortedSet key) : SortedSet key :=
  ⟨s.elems.filter p, s.sorted.filter p⟩

def erase (a : α) (s : SortedSet key) : SortedSet key :=
  s.filter fun b => b ≠ a

end Erase

section Sums

variable [DecidableEq α] {M : Type} [AddCommMonoid M]

def toFinset (s : SortedSet key) : Finset α :=
  s.elems.toFinset

@[simp]
theorem mem_toFinset {s : SortedSet key} {a : α} : a ∈ s.toFinset ↔ a ∈ s :=
  List.mem_toFinset

/-- A loop over the elements adds up what they add up to in any order. -/
theorem sum_elems (s : SortedSet key) (f : α → M) : (s.elems.map f).sum = ∑ a ∈ s.toFinset, f a :=
  (List.sum_toFinset f s.nodup).symm

end Sums

end SortedSet

end Verium.Lib
