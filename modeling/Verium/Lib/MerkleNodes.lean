import Mathlib.Data.List.Nodup
import Mathlib.Data.List.Range
import Mathlib.Tactic.Ring
import Verium.Lib.Merkle

/-!
The nodes of a tree of hashes by their height and position. Over `n` leaves the tree has
`width n h` nodes at height `h`, and the node at a position covers the leaves `below` it. A subset
of the leaves is proved with the nodes that a walk from the root meets: one bit for each, and a
hash where the walk does not go further down.
-/

namespace Verium.Lib.Merkle

section Shape

variable {n h pos : Nat}

/-- The number of nodes at height `h` over `n` leaves. -/
def width (n h : Nat) : Nat :=
  (n + 2 ^ h - 1) / 2 ^ h

theorem lt_width_iff : pos < width n h ↔ pos * 2 ^ h < n := by
  have hpow : 0 < 2 ^ h := Nat.two_pow_pos h
  rw [width, ← Nat.add_one_le_iff, Nat.le_div_iff_mul_le hpow, Nat.add_one_mul]
  omega

theorem width_zero (n : Nat) : width n 0 = n := by
  simp [width]

theorem width_succ (n h : Nat) : width n (h + 1) = (width n h + 1) / 2 := by
  apply eq_of_forall_lt_iff
  intro pos
  have hdouble : 2 * pos < width n h ↔ pos * 2 ^ (h + 1) < n := by
    rw [lt_width_iff, pow_succ']
    ring_nf
  rw [lt_width_iff, ← hdouble]
  omega

theorem width_le_one_iff : width n h ≤ 1 ↔ n ≤ 2 ^ h := by
  have hiff : 1 < width n h ↔ 1 * 2 ^ h < n := lt_width_iff
  omega

/-- The leaves below the node at height `h` and position `pos`. -/
def below (n h pos : Nat) : List Nat :=
  (List.range' (pos * 2 ^ h) (2 ^ h)).filter (· < n)

theorem below_zero (hpos : pos < n) : below n 0 pos = [pos] := by
  simp [below, hpos]

theorem below_succ (n h pos : Nat) :
    below n (h + 1) pos = below n h (2 * pos) ++ below n h (2 * pos + 1) := by
  have hsplit : List.range' (pos * 2 ^ (h + 1)) (2 ^ (h + 1)) =
      List.range' (2 * pos * 2 ^ h) (2 ^ h) ++ List.range' ((2 * pos + 1) * 2 ^ h) (2 ^ h) := by
    have hstart : pos * 2 ^ (h + 1) = 2 * pos * 2 ^ h := by ring
    have hmiddle : (2 * pos + 1) * 2 ^ h = 2 * pos * 2 ^ h + 2 ^ h := by ring
    rw [hstart, hmiddle, pow_succ, Nat.mul_two, List.range'_append_1]
  rw [below, hsplit, List.filter_append]
  rfl

theorem below_eq_nil_iff : below n h pos = [] ↔ width n h ≤ pos := by
  rw [← not_lt, lt_width_iff]
  constructor
  · intro hnil hlt
    have hmem : pos * 2 ^ h ∈ below n h pos := by
      simp [below, hlt, List.mem_range'_1]
    rw [hnil] at hmem
    cases hmem
  · intro hge
    apply List.filter_eq_nil_iff.mpr
    intro leaf hleaf hlt
    have hle := (List.mem_range'_1.mp hleaf).1
    exact hge (hle.trans_lt (of_decide_eq_true hlt))

theorem below_root (hle : n ≤ 2 ^ h) : below n h 0 = List.range n := by
  obtain ⟨k, hk⟩ := Nat.exists_eq_add_of_le hle
  have hin : (List.range' 0 n).filter (· < n) = List.range' 0 n := by
    apply List.filter_eq_self.mpr
    intro leaf hleaf
    simpa using List.mem_range'_1.mp hleaf
  have hout : (List.range' (0 + n) k).filter (· < n) = [] := by
    apply List.filter_eq_nil_iff.mpr
    intro leaf hleaf
    have hge := (List.mem_range'_1.mp hleaf).1
    simp only [decide_eq_true_eq]
    omega
  rw [below, hk, Nat.zero_mul, ← List.range'_append_1, List.filter_append, hin, hout,
    List.append_nil, List.range_eq_range']

end Shape

section Nodes

variable {α : Type*} {H : α → α → α} {l : List α} {h pos : Nat} {a b : α}

theorem getElem?_pairs (l : List α) (i : Nat) :
    (pairs l)[i]? = l[2 * i]?.map fun a => (a, l[2 * i + 1]?.getD a) := by
  induction l using pairs.induct generalizing i with
  | case1 a b rest ih =>
    cases i with
    | zero => rfl
    | succ i =>
      rw [pairs, List.getElem?_cons_succ, ih]
      rfl
  | case2 a =>
    cases i with
    | zero => rfl
    | succ i => rfl
  | case3 => rfl

theorem length_pairs (l : List α) : (pairs l).length = (l.length + 1) / 2 := by
  induction l using pairs.induct with
  | case1 a b rest ih =>
    rw [pairs, List.length_cons, ih, List.length_cons, List.length_cons]
    omega
  | case2 a => simp [pairs]
  | case3 => simp [pairs]

/-- The hash at height `h` and position `pos`. -/
def nodeAt (H : α → α → α) (l : List α) (h pos : Nat) : Option α :=
  ((level H)^[h] l)[pos]?

theorem nodeAt_zero (H : α → α → α) (l : List α) (pos : Nat) : nodeAt H l 0 pos = l[pos]? :=
  rfl

theorem length_iterate_level (H : α → α → α) (l : List α) (h : Nat) :
    ((level H)^[h] l).length = width l.length h := by
  induction h with
  | zero => exact (width_zero _).symm
  | succ h ih =>
    rw [Function.iterate_succ_apply', width_succ, ← ih, level, List.length_map, length_pairs]

theorem nodeAt_eq_none : nodeAt H l h pos = none ↔ width l.length h ≤ pos := by
  rw [nodeAt, List.getElem?_eq_none_iff, length_iterate_level]

theorem exists_nodeAt (hpos : pos < width l.length h) : ∃ a, nodeAt H l h pos = some a := by
  apply Option.ne_none_iff_exists'.mp
  rw [Ne, nodeAt_eq_none]
  exact not_le.mpr hpos

/-- A node is the hash of the pair of nodes below it, of which the second may be missing. -/
theorem nodeAt_succ (H : α → α → α) (l : List α) (h pos : Nat) :
    nodeAt H l (h + 1) pos =
      (nodeAt H l h (2 * pos)).map fun a => H a ((nodeAt H l h (2 * pos + 1)).getD a) := by
  rw [nodeAt, Function.iterate_succ_apply', level, List.getElem?_map, getElem?_pairs,
    Option.map_map]
  rfl

/-- The pair below a node is one of those hashed on the way to the root. -/
theorem hashed_nodeAt (hroom : 1 < width l.length h) (ha : nodeAt H l h (2 * pos) = some a) :
    Hashed H l (a, (nodeAt H l h (2 * pos + 1)).getD a) := by
  induction h generalizing l with
  | zero =>
    rw [width_zero] at hroom
    refine .here hroom (List.mem_of_getElem? (i := pos) ?_)
    rw [nodeAt_zero] at ha
    rw [getElem?_pairs, ha]
    rfl
  | succ h ih =>
    have hlevel : width (level H l).length h = width l.length (h + 1) := by
      rw [← length_iterate_level H, ← length_iterate_level H, Function.iterate_succ_apply]
    have hlen : 1 < l.length := by
      by_contra hshort
      have hone : width l.length (h + 1) ≤ 1 :=
        width_le_one_iff.mpr ((not_lt.mp hshort).trans (Nat.one_le_two_pow))
      omega
    rw [nodeAt, Function.iterate_succ_apply] at ha
    have hup := ih (l := level H l) (by rw [hlevel]; exact hroom) ha
    exact .up hlen hup

/-- Without collisions, and if no leaf occurs twice, the nodes of one height are different. -/
theorem nodeAt_injective (hinj : Set.InjOn (fun p : α × α => H p.1 p.2) {p | Hashed H l p})
    (hnodup : l.Nodup) {pos' : Nat} (ha : nodeAt H l h pos = some a)
    (hb : nodeAt H l h pos' = some a) : pos = pos' := by
  induction h generalizing pos pos' a with
  | zero =>
    obtain ⟨hlt, ha⟩ := List.getElem?_eq_some_iff.mp ha
    obtain ⟨hlt', hb⟩ := List.getElem?_eq_some_iff.mp hb
    exact (hnodup.getElem_inj_iff).mp (ha.trans hb.symm)
  | succ h ih =>
    by_contra hne
    rw [nodeAt_succ] at ha hb
    obtain ⟨x, hx, hxa⟩ := Option.map_eq_some_iff.mp ha
    obtain ⟨y, hy, hya⟩ := Option.map_eq_some_iff.mp hb
    have hroom : 1 < width l.length h := by
      by_contra hone
      have hpos : 2 * pos < width l.length h := by
        by_contra hout
        rw [nodeAt_eq_none.mpr (not_lt.mp hout)] at hx
        cases hx
      have hpos' : 2 * pos' < width l.length h := by
        by_contra hout
        rw [nodeAt_eq_none.mpr (not_lt.mp hout)] at hy
        cases hy
      omega
    have hpair := hinj (hashed_nodeAt hroom hx) (hashed_nodeAt hroom hy) (hxa.trans hya.symm)
    have hxy : x = y := congrArg Prod.fst hpair
    subst hxy
    have hdouble := ih hx hy
    omega

end Nodes

section Proof

variable {α : Type*} {n h pos : Nat} {wanted : Nat → Bool}

/-- The bits of the walk below a node: whether a wanted leaf is below. -/
def proofBits (n : Nat) (wanted : Nat → Bool) : (h pos : Nat) → List Bool
  | 0, pos => [wanted pos]
  | h + 1, pos =>
      if (below n (h + 1) pos).any wanted then
        true :: (proofBits n wanted h (2 * pos) ++
          if 2 * pos + 1 < width n h then proofBits n wanted h (2 * pos + 1) else [])
      else [false]

/-- The hashes of the walk below a node: those of the nodes where it ends. -/
def proofHashes (n : Nat) (wanted : Nat → Bool) (node : Nat → Nat → α) : (h pos : Nat) → List α
  | 0, pos => [node 0 pos]
  | h + 1, pos =>
      if (below n (h + 1) pos).any wanted then
        proofHashes n wanted node h (2 * pos) ++
          if 2 * pos + 1 < width n h then proofHashes n wanted node h (2 * pos + 1) else []
      else [node (h + 1) pos]

theorem length_proofHashes_le_bits (n : Nat) (wanted : Nat → Bool) (node : Nat → Nat → α)
    (h pos : Nat) :
    (proofHashes n wanted node h pos).length ≤ (proofBits n wanted h pos).length := by
  induction h generalizing pos with
  | zero => exact le_rfl
  | succ h ih =>
    rw [proofHashes, proofBits]
    split
    · have hleft := ih (2 * pos)
      split
      · have hright := ih (2 * pos + 1)
        simp only [List.length_append, List.length_cons]
        omega
      · simp only [List.append_nil, List.length_cons]
        omega
    · exact le_rfl

theorem length_proofHashes_le_below (wanted : Nat → Bool) (node : Nat → Nat → α)
    (hpos : pos < width n h) :
    (proofHashes n wanted node h pos).length ≤ (below n h pos).length := by
  induction h generalizing pos with
  | zero =>
    rw [width_zero] at hpos
    rw [below_zero hpos]
    exact le_rfl
  | succ h ih =>
    have hleft : 2 * pos < width n h := by
      rw [width_succ] at hpos
      omega
    rw [proofHashes]
    split
    · have hleft := ih hleft
      rw [below_succ]
      split
      · next hin =>
        have hright := ih hin
        simp only [List.length_append]
        omega
      · simp only [List.append_nil, List.length_append]
        omega
    · rw [List.length_singleton]
      apply List.length_pos_of_ne_nil
      rw [Ne, below_eq_nil_iff]
      exact not_le.mpr hpos

end Proof

end Verium.Lib.Merkle
