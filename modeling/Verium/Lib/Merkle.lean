import Mathlib.Data.Set.Function
import Mathlib.Logic.Function.Iterate

/-!
Trees of hashes over a list of leaves. On each level neighbours are hashed together, an odd last
one with itself, so lists of different lengths can have one root; but then one of them has two
equal neighbours on some level. Without those, and without collisions among the pairs hashed, the
root determines the leaves.
-/

namespace Verium.Lib.Merkle

variable {α : Type*}

/-- The pairs that a level hashes. -/
def pairs : List α → List (α × α)
  | a :: b :: rest => (a, b) :: pairs rest
  | [a] => [(a, a)]
  | [] => []

/-- Two neighbours that a level hashes together are equal. -/
def Mutated : List α → Prop
  | a :: b :: rest => a = b ∨ Mutated rest
  | _ => False

def level (H : α → α → α) (l : List α) : List α :=
  (pairs l).map fun p => H p.1 p.2

/-- After `n` levels above `l`, each of at least two elements and not mutated, the root is
left. -/
inductive Rooted (H : α → α → α) : Nat → List α → α → Prop where
  | leaf (r : α) : Rooted H 0 [r] r
  | node {n : Nat} {l : List α} {r : α} : 1 < l.length → ¬ Mutated l → Rooted H n (level H l) r →
      Rooted H (n + 1) l r

/-- The pairs hashed on the way to the root. -/
inductive Hashed (H : α → α → α) : List α → α × α → Prop where
  | here {l : List α} {p : α × α} : 1 < l.length → p ∈ pairs l → Hashed H l p
  | up {l : List α} {p : α × α} : 1 < l.length → Hashed H (level H l) p → Hashed H l p

variable {H : α → α → α} {n k : Nat} {x y : List α} {r : α} {p : α × α}

theorem pairs_eq_nil (h : pairs x = []) : x = [] := by
  induction x using pairs.induct with
  | case1 a b rest => cases h
  | case2 a => cases h
  | case3 => rfl

/-- The pairs give the list back, unless the last one may have been made from one element. -/
theorem eq_of_pairs_eq (hx : ¬ Mutated x) (hy : ¬ Mutated y) (h : pairs x = pairs y) : x = y := by
  induction x using pairs.induct generalizing y with
  | case1 a b rest ih =>
    match y, hy, h with
    | c :: d :: rest', hy, h =>
      obtain ⟨hpair, hrest⟩ := List.cons.inj h
      cases hpair
      rw [ih (fun hm => hx (.inr hm)) (fun hm => hy (.inr hm)) hrest]
    | [c], _, h =>
      obtain ⟨hpair, -⟩ := List.cons.inj h
      cases hpair
      exact absurd (.inl rfl) hx
  | case2 a =>
    match y, hy, h with
    | c :: d :: rest', hy, h =>
      obtain ⟨hpair, -⟩ := List.cons.inj h
      cases hpair
      exact absurd (.inl rfl) hy
    | [c], _, h =>
      obtain ⟨hpair, -⟩ := List.cons.inj h
      cases hpair
      rfl
  | case3 => exact (pairs_eq_nil h.symm).symm

theorem Hashed.one_lt_length (h : Hashed H x p) : 1 < x.length := by
  cases h with
  | here hlen _ => exact hlen
  | up hlen _ => exact hlen

theorem Hashed.iterate (h : Rooted H (n + k) y r) (hp : Hashed H ((level H)^[k] y) p) :
    Hashed H y p := by
  induction k generalizing y with
  | zero => exact hp
  | succ k ih =>
    cases h with
    | node hlen _ hup => exact .up hlen (ih hup hp)

theorem Rooted.iterate (h : Rooted H (n + k) y r) : Rooted H n ((level H)^[k] y) r := by
  induction k generalizing y with
  | zero => exact h
  | succ k ih =>
    cases h with
    | node _ _ hup => exact ih hup

theorem Rooted.ne_nil (h : Rooted H n x r) : x ≠ [] := by
  cases h with
  | leaf => exact List.cons_ne_nil r []
  | node hlen _ _ =>
    rintro rfl
    exact absurd hlen (Nat.not_lt_zero 1)

theorem map_eq_of_injOn {β : Type*} {f : α → β} {S : Set α} (hinj : Set.InjOn f S)
    (hx : ∀ a ∈ x, a ∈ S) (hy : ∀ a ∈ y, a ∈ S) (h : x.map f = y.map f) : x = y := by
  induction x generalizing y with
  | nil => exact (List.map_eq_nil_iff.mp h.symm).symm
  | cons a x ih =>
    cases y with
    | nil => cases h
    | cons b y =>
      obtain ⟨hhead, htail⟩ := List.cons.inj h
      obtain ⟨ha, hx⟩ := List.forall_mem_cons.mp hx
      obtain ⟨hb, hy⟩ := List.forall_mem_cons.mp hy
      rw [hinj ha hb hhead, ih hx hy htail]

/-- No two of the pairs hashed on the way to the two roots have one hash, and no hash is a
leaf. -/
structure CollisionFree (H : α → α → α) (x y : List α) : Prop where
  injOn : Set.InjOn (fun p : α × α => H p.1 p.2) {p | Hashed H x p ∨ Hashed H y p}
  notMem : ∀ p, Hashed H x p ∨ Hashed H y p → H p.1 p.2 ∉ x ∧ H p.1 p.2 ∉ y

theorem CollisionFree.symm (h : CollisionFree H x y) : CollisionFree H y x where
  injOn := by
    simp only [or_comm]
    exact h.injOn
  notMem p hp := (h.notMem p hp.symm).symm

theorem Rooted.eq_of_height {S : Set (α × α)}
    (hinj : Set.InjOn (fun p : α × α => H p.1 p.2) S) (hx : Rooted H n x r)
    (hy : Rooted H n y r) (hxS : ∀ p, Hashed H x p → p ∈ S) (hyS : ∀ p, Hashed H y p → p ∈ S) :
    x = y := by
  induction n generalizing x y with
  | zero =>
    cases hx
    cases hy
    rfl
  | succ n ih =>
    cases hx with
    | node hxlen hxmut hxup =>
      cases hy with
      | node hylen hymut hyup =>
        have hlevel : level H x = level H y :=
          ih hxup hyup (fun p hp => hxS p (.up hxlen hp)) (fun p hp => hyS p (.up hylen hp))
        apply eq_of_pairs_eq hxmut hymut
        exact map_eq_of_injOn hinj (fun p hp => hxS p (.here hxlen hp))
          (fun p hp => hyS p (.here hylen hp)) hlevel

/-- The leaves of the lower tree are the list that the higher one has at that height; if the
heights differ that list is made of hashes. -/
theorem Rooted.eq_of_le {m : Nat} (h : CollisionFree H x y) (hx : Rooted H n x r)
    (hy : Rooted H m y r) (hle : n ≤ m) : x = y := by
  obtain ⟨k, rfl⟩ := Nat.exists_eq_add_of_le hle
  have heq : x = (level H)^[k] y :=
    hx.eq_of_height h.injOn hy.iterate (fun p hp => .inl hp) fun p hp => .inr (hp.iterate hy)
  cases k with
  | zero => exact heq
  | succ k =>
    rw [Function.iterate_succ_apply'] at heq
    have hbelow : Rooted H (n + 1) ((level H)^[k] y) r := by
      apply Rooted.iterate
      rwa [Nat.add_right_comm]
    cases hbelow with
    | node hlen _ _ =>
      obtain ⟨a, ha⟩ := List.exists_mem_of_ne_nil x hx.ne_nil
      have hmem := ha
      rw [heq] at hmem
      obtain ⟨p, hp, rfl⟩ := List.mem_map.mp hmem
      have hhashed : Hashed H y p := by
        apply Hashed.iterate (n := n + 1) (k := k) (r := r) _ (.here hlen hp)
        rwa [Nat.add_right_comm]
      exact absurd ha (h.notMem p (.inr hhashed)).1

theorem Rooted.unique {m : Nat} (h : CollisionFree H x y) (hx : Rooted H n x r)
    (hy : Rooted H m y r) : x = y := by
  rcases Nat.le_total n m with hle | hle
  · exact hx.eq_of_le h hy hle
  · exact (hy.eq_of_le h.symm hx hle).symm

end Verium.Lib.Merkle
