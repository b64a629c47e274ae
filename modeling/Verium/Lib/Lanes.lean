import Mathlib.Tactic.Ring
import Mathlib.Order.Nat

/-!
Buffers that hold several lanes. In an interleaved buffer of `w` lanes, word `i` of lane `k` is at
`w * i + k`; in a contiguous one of lanes of `n` words, it is at `k * n + i`. An operation that
works on whole buffers is lane-wise if a lane of its result is the operation on the lanes.
-/

namespace Verium.Lib

universe u

variable {α β : Type u} {w n m : Nat}

/-- A piece of a buffer. -/
def slice (v : Vector α n) (start len : Nat) (h : start + len ≤ n) : Vector α len :=
  .ofFn fun i => v[start + i]

@[simp]
theorem getElem_slice {v : Vector α n} {start len : Nat} {h : start + len ≤ n} {i : Nat}
    (hi : i < len) : (slice v start len h)[i] = v[start + i] := by
  simp [slice]

theorem slice_self {v : Vector α n} {start : Nat} {h : start + n ≤ n} : slice v start n h = v := by
  obtain rfl : start = 0 := by omega
  ext i hi
  simp

@[simp]
theorem slice_cast {v : Vector α n} {h : n = m} {start len : Nat} {h' : start + len ≤ m} :
    slice (v.cast h) start len h' = slice v start len (h ▸ h') := by
  subst h
  rfl

theorem slice_slice {v : Vector α n} {start len start' len' : Nat} {h : start + len ≤ n}
    {h' : start' + len' ≤ len} : slice (slice v start len h) start' len' h' =
      slice v (start + start') len' (by omega) := by
  ext i hi
  simp [Nat.add_assoc]

/-- Word `i` of part `j` of a buffer that is put together from parts of one size. -/
theorem getElem_flatten_add {vs : Vector (Vector α m) n} {i j : Nat} (hj : j < n) (hi : i < m)
    (h : j * m + i < n * m) : vs.flatten[j * m + i] = vs[j][i] := by
  have hdiv : (j * m + i) / m = j := by
    rw [Nat.mul_comm, Nat.mul_add_div (by omega), Nat.div_eq_of_lt hi, Nat.add_zero]
  have hmod : (j * m + i) % m = i := by
    rw [Nat.mul_comm, Nat.mul_add_mod, Nat.mod_eq_of_lt hi]
  simp [Vector.getElem_flatten, hdiv, hmod]

theorem slice_flatten_part {vs : Vector (Vector α m) n} {j : Nat} (hj : j < n)
    (h : j * m + m ≤ n * m) : slice vs.flatten (j * m) m h = vs[j] := by
  ext i hi
  rw [getElem_slice hi]
  exact getElem_flatten_add hj hi _

section Lane

theorem stride_lt {i k : Nat} (hi : i < n) (hk : k < w) : w * i + k < w * n :=
  calc w * i + k < w * i + w := Nat.add_lt_add_left hk _
    _ = w * (i + 1) := (Nat.mul_succ w i).symm
    _ ≤ w * n := Nat.mul_le_mul_left w hi

/-- Lane `k` of `w` interleaved lanes. -/
def lane (k : Fin w) (v : Vector α (w * n)) : Vector α n :=
  .ofFn fun i => v[(⟨w * i + k, stride_lt i.isLt k.isLt⟩ : Fin (w * n))]

@[simp]
theorem getElem_lane {k : Fin w} {v : Vector α (w * n)} {i : Nat} (hi : i < n) :
    (lane k v)[i] = v[(⟨w * i + k, stride_lt hi k.isLt⟩ : Fin (w * n))] := by
  simp [lane]

/-- Two interleaved buffers behind each other. -/
def appendLanes (a : Vector α (w * n)) (b : Vector α (w * m)) : Vector α (w * (n + m)) :=
  (a ++ b).cast (Nat.mul_add w n m).symm

/-- Every word once for each lane. -/
def spread (w : Nat) (v : Vector α n) : Vector α (w * n) :=
  .ofFn fun t => v[(⟨t / w, Nat.div_lt_of_lt_mul t.isLt⟩ : Fin n)]

/-- The buffer with the given lanes. -/
def ofLanes (f : Fin w → Vector α n) : Vector α (w * n) :=
  .ofFn fun t =>
    (f ⟨t % w, Nat.mod_lt _ (Nat.pos_of_mul_pos_right (Nat.zero_lt_of_lt t.isLt))⟩)[
      (⟨t / w, Nat.div_lt_of_lt_mul t.isLt⟩ : Fin n)]

variable {k : Fin w}

theorem stride_div {i : Nat} : (w * i + k) / w = i := by
  rw [Nat.mul_add_div (Nat.zero_lt_of_lt k.isLt), Nat.div_eq_of_lt k.isLt, Nat.add_zero]

@[simp]
theorem lane_appendLanes {a : Vector α (w * n)} {b : Vector α (w * m)} :
    lane k (appendLanes a b) = lane k a ++ lane k b := by
  ext i hi
  by_cases hlt : i < n
  · have hin : w * i + k < w * n := stride_lt hlt k.isLt
    simp [appendLanes, hlt, hin]
  · obtain ⟨d, rfl⟩ := Nat.exists_eq_add_of_le (Nat.le_of_not_lt hlt)
    have hout : ¬ w * (n + d) + k < w * n := by
      rw [Nat.mul_add]
      omega
    have hindex : w * (n + d) + k - w * n = w * d + k := by
      rw [Nat.mul_add]
      omega
    simp [appendLanes, Vector.getElem_append, hout, hindex]

@[simp]
theorem lane_map {f : α → β} {v : Vector α (w * n)} : lane k (v.map f) = (lane k v).map f := by
  ext i hi
  simp

@[simp]
theorem lane_replicate {a : α} : lane k (Vector.replicate (w * n) a) = Vector.replicate n a := by
  ext i hi
  simp

@[simp]
theorem lane_slice {v : Vector α (w * n)} {start len : Nat} (h : start + len ≤ n)
    {h' : w * start + w * len ≤ w * n} :
    lane k (slice v (w * start) (w * len) h') = slice (lane k v) start len h := by
  ext i hi
  simp [Nat.mul_add, Nat.add_assoc]

@[simp]
theorem lane_spread {v : Vector α n} : lane k (spread w v) = v := by
  ext i hi
  simp [spread, stride_div]

@[simp]
theorem lane_ofLanes {f : Fin w → Vector α n} : lane k (ofLanes f) = f k := by
  ext i hi
  simp [ofLanes, stride_div, Nat.mod_eq_of_lt k.isLt]

end Lane

theorem row_le {k : Nat} (hk : k < w) : k * n + n ≤ w * n := by
  rw [← Nat.succ_mul]
  exact Nat.mul_le_mul_right n hk

/-- From contiguous lanes to interleaved ones: word `k * n + i` moves to `w * i + k`. -/
def weave (v : Vector α (w * n)) : Vector α (w * n) :=
  ofLanes fun k => slice v (k * n) n (row_le k.isLt)

/-- From interleaved lanes to contiguous ones: word `w * i + k` moves to `k * n + i`. -/
def unweave (v : Vector α (w * n)) : Vector α (w * n) :=
  (Vector.ofFn fun k => lane k v).flatten

@[simp]
theorem lane_weave {k : Fin w} {v : Vector α (w * n)} :
    lane k (weave v) = slice v (k * n) n (row_le k.isLt) :=
  lane_ofLanes

theorem slice_unweave {v : Vector α (w * n)} {k : Nat} (hk : k < w) :
    slice (unweave v) (k * n) n (row_le hk) = lane ⟨k, hk⟩ v := by
  rw [unweave, slice_flatten_part hk, Vector.getElem_ofFn]

section Groups

variable {g : Nat}

theorem lane_le {l : Nat} (hl : l < g * w) : l * n + n ≤ g * (w * n) := by
  rw [← Nat.mul_assoc]
  exact row_le hl

theorem group_lt {l : Nat} (hl : l < g * w) : l / w < g :=
  Nat.div_lt_of_lt_mul (by rwa [Nat.mul_comm])

theorem inner_lt {l : Nat} (hl : l < g * w) : l % w < w :=
  Nat.mod_lt l (Nat.pos_of_mul_pos_left (Nat.zero_lt_of_lt hl))

theorem lane_offset (l : Nat) : l * n = l / w * (w * n) + l % w * n := by
  conv_lhs => rw [← Nat.div_add_mod l w]
  ring

/-- A contiguous lane of groups of lanes is a lane of its group. -/
theorem slice_slice_lane {v : Vector α (g * (w * n))} {l : Nat} (hl : l < g * w) :
    slice (slice v (l / w * (w * n)) (w * n) (row_le (group_lt hl))) (l % w * n) n
      (row_le (inner_lt hl)) = slice v (l * n) n (lane_le hl) := by
  rw [slice_slice]
  congr 1
  exact (lane_offset l).symm

theorem slice_flatten_lane {vs : Vector (Vector α (w * n)) g} {l : Nat} (hl : l < g * w) :
    slice vs.flatten (l * n) n (lane_le hl) =
      slice vs[(⟨l / w, group_lt hl⟩ : Fin g)] (l % w * n) n (row_le (inner_lt hl)) := by
  rw [← slice_slice_lane hl, slice_flatten_part (group_lt hl)]
  rfl

end Groups

end Verium.Lib
