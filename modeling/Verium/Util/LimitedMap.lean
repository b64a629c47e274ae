import Mathlib.Data.List.AList
import Mathlib.Order.Lattice
import Verium.Lib.Outcome

/-!
`limitedmap` of `limitedmap.h`. An iterator of `map` is the key it points to; `rmap` is in the order
of its values, and an entry with a value that is there already comes last among them.
-/

namespace Verium

open List

variable {K V : Type}

structure LimitedMap (K V : Type) where
  map : AList fun _ : K => V
  rmap : List (V × K)
  nMaxSize : Nat

namespace LimitedMap

inductive Stop
  /-- `assert(nMaxSizeIn > 0)` and `assert(s > 0)` -/
  | notPositive
  /-- `assert(0)` -/
  | unreachable
  /-- `rmap.begin()` of an empty `rmap`. -/
  | emptyRmap
deriving DecidableEq, Repr

inductive Op (K V : Type)
  | insert (k : K) (v : V)
  | erase (k : K)
  /-- `update`, with the key of the iterator. -/
  | update (k : K) (v : V)
  | maxSize (s : Nat)

/-- `rmap.insert` -/
def rmapInsert [LinearOrder V] (x : V × K) : List (V × K) → List (V × K)
  | [] => [x]
  | y :: rmap => if x.1 < y.1 then x :: y :: rmap else y :: rmapInsert x rmap

def new (nMaxSizeIn : Nat) : Except Stop (LimitedMap K V) :=
  if nMaxSizeIn = 0 then .error .notPositive else .ok ⟨∅, [], nMaxSizeIn⟩

section Calls

variable [DecidableEq K] [LinearOrder V]

def insert (s : LimitedMap K V) (k : K) (v : V) : Except Stop (LimitedMap K V) :=
  if k ∈ s.map then .ok s
  else
    let map := s.map.insert k v
    if s.nMaxSize < map.entries.length then
      match s.rmap with
      | [] => .error .emptyRmap
      | x :: rmap => .ok { s with map := map.erase x.2, rmap := rmapInsert (v, k) rmap }
    else .ok { s with map, rmap := rmapInsert (v, k) s.rmap }

def erase (s : LimitedMap K V) (k : K) : Except Stop (LimitedMap K V) :=
  match s.map.lookup k with
  | none => .ok s
  | some v =>
      if (v, k) ∈ s.rmap then .ok { s with map := s.map.erase k, rmap := s.rmap.erase (v, k) }
      else .error .unreachable

def update (s : LimitedMap K V) (k : K) (v : V) : Except Stop (LimitedMap K V) :=
  match s.map.lookup k with
  | none => .ok s
  | some old =>
      if (old, k) ∈ s.rmap then
        .ok { s with map := s.map.insert k v, rmap := rmapInsert (v, k) (s.rmap.erase (old, k)) }
      else .error .unreachable

/-- The loop of `max_size`. -/
def shrink (s : Nat) (map : AList fun _ : K => V) :
    List (V × K) → Except Stop ((AList fun _ : K => V) × List (V × K))
  | [] => if s < map.entries.length then .error .emptyRmap else .ok (map, [])
  | x :: rmap =>
      if s < map.entries.length then shrink s (map.erase x.2) rmap else .ok (map, x :: rmap)

def maxSize (s : LimitedMap K V) (size : Nat) : Except Stop (LimitedMap K V) :=
  if size = 0 then .error .notPositive
  else do
    let (map, rmap) ← shrink size s.map s.rmap
    return ⟨map, rmap, size⟩

def step (s : LimitedMap K V) : Op K V → Except Stop (LimitedMap K V)
  | .insert k v => s.insert k v
  | .erase k => s.erase k
  | .update k v => s.update k v
  | .maxSize size => s.maxSize size

end Calls

section Mirror

variable {k : K} {v : V} {map : AList fun _ : K => V} {rmap rmap' : List (V × K)}

theorem perm_rmapInsert [LinearOrder V] (x : V × K) (rmap : List (V × K)) :
    rmapInsert x rmap ~ x :: rmap := by
  induction rmap with
  | nil => exact .refl _
  | cons y rmap ih =>
    rw [rmapInsert]
    split
    · exact .refl _
    · exact (ih.cons y).trans (.swap x y rmap)

/-- The values are in order. -/
def Ascending [LinearOrder V] (rmap : List (V × K)) : Prop :=
  rmap.Pairwise fun x y => x.1 ≤ y.1

theorem Ascending.rmapInsert [LinearOrder V] (x : V × K) (h : Ascending rmap) :
    Ascending (rmapInsert x rmap) := by
  induction rmap with
  | nil => exact List.pairwise_singleton _ _
  | cons y rmap ih =>
    obtain ⟨hy, hrmap⟩ := List.pairwise_cons.mp h
    rw [LimitedMap.rmapInsert]
    split
    · rename_i hlt
      refine List.pairwise_cons.mpr ⟨fun z hz => ?_, h⟩
      rcases List.mem_cons.mp hz with rfl | hz
      · exact le_of_lt hlt
      · exact (le_of_lt hlt).trans (hy z hz)
    · rename_i hge
      refine List.pairwise_cons.mpr ⟨fun z hz => ?_, ih hrmap⟩
      rcases List.mem_cons.mp ((perm_rmapInsert x rmap).mem_iff.mp hz) with rfl | hz
      · exact le_of_not_gt hge
      · exact hy z hz

theorem Ascending.of_cons [LinearOrder V] {x : V × K} (h : Ascending (x :: rmap)) :
    Ascending rmap :=
  (List.pairwise_cons.mp h).2

/-- The entry of `map` that an entry of `rmap` stands for. -/
def entryOf (x : V × K) : Sigma fun _ : K => V :=
  ⟨x.2, x.1⟩

/-- Each entry of `map` has one entry of `rmap` with its value, and there are no others. -/
def Mirrors (rmap : List (V × K)) (map : AList fun _ : K => V) : Prop :=
  rmap.map entryOf ~ map.entries

namespace Mirrors

theorem of_perm (h : Mirrors rmap map) (hperm : rmap' ~ rmap) : Mirrors rmap' map :=
  (hperm.map entryOf).trans h

theorem length_eq (h : Mirrors rmap map) : rmap.length = map.entries.length := by
  rw [← List.Perm.length_eq h, List.length_map]

variable [DecidableEq K]

theorem mem_iff (h : Mirrors rmap map) : (v, k) ∈ rmap ↔ map.lookup k = some v := by
  rw [← Option.mem_def, AList.mem_lookup_iff, ← List.Perm.mem_iff h, List.mem_map]
  constructor
  · intro hmem
    exact ⟨(v, k), hmem, rfl⟩
  · rintro ⟨⟨v', k'⟩, hmem, heq⟩
    cases heq
    exact hmem

theorem erase (h : Mirrors ((v, k) :: rmap) map) : Mirrors rmap (map.erase k) := by
  have hkerase := List.Perm.kerase (a := k) map.nodupKeys (List.Perm.symm h)
  rw [List.map_cons, List.kerase_cons_eq (by rfl)] at hkerase
  exact hkerase.symm

variable [LinearOrder V]

theorem insert (h : Mirrors rmap (map.erase k)) :
    Mirrors (rmapInsert (v, k) rmap) (map.insert k v) := by
  apply of_perm _ (perm_rmapInsert (v, k) rmap)
  rw [Mirrors, AList.entries_insert]
  exact h.cons _

theorem insert_new (h : Mirrors rmap map) (hk : k ∉ map) :
    Mirrors (rmapInsert (v, k) rmap) (map.insert k v) := by
  apply insert
  have herase : map.erase k = map := AList.ext (List.kerase_of_notMem_keys hk)
  rwa [herase]

theorem exchange {x : V × K} (h : Mirrors (x :: rmap) map) (hk : k ∉ map) :
    Mirrors (rmapInsert (v, k) rmap) ((map.insert k v).erase x.2) := by
  apply erase (v := x.1)
  apply of_perm (h.insert_new hk)
  calc x :: rmapInsert (v, k) rmap ~ x :: (v, k) :: rmap := (perm_rmapInsert _ _).cons x
    _ ~ (v, k) :: x :: rmap := .swap _ _ _
    _ ~ rmapInsert (v, k) (x :: rmap) := (perm_rmapInsert _ _).symm

end Mirrors

end Mirror

/-- What holds between two calls. -/
structure Inv [LinearOrder V] (s : LimitedMap K V) : Prop where
  mirrors : Mirrors s.rmap s.map
  ascending : Ascending s.rmap
  positive : 0 < s.nMaxSize
  size : s.map.entries.length ≤ s.nMaxSize

variable [LinearOrder V] {s : LimitedMap K V} {k : K} {v : V}

theorem inv_new {n : Nat} (h : new n = .ok s) : Inv s := by
  rw [new] at h
  split at h
  · cases h
  · rename_i hn
    cases h
    exact ⟨.refl _, .nil, Nat.pos_of_ne_zero hn, Nat.zero_le _⟩

variable [DecidableEq K]

/-- An insertion of a new key into a full map removes the entry with the lowest value. -/
theorem insert_full (h : Inv s) (hk : k ∉ s.map) (hfull : s.map.entries.length = s.nMaxSize)
    (v : V) :
    ∃ x rmap, s.rmap = x :: rmap ∧ s.insert k v =
      .ok { s with map := (s.map.insert k v).erase x.2, rmap := rmapInsert (v, k) rmap } := by
  have hlength := h.mirrors.length_eq
  have hpositive := h.positive
  cases hrmap : s.rmap with
  | nil =>
    rw [hrmap, List.length_nil] at hlength
    omega
  | cons x rmap =>
    refine ⟨x, rmap, rfl, ?_⟩
    rw [insert, if_neg hk]
    dsimp only
    rw [AList.entries_insert_of_notMem hk, List.length_cons, if_pos (by omega), hrmap]

theorem insert_inv (h : Inv s) (k : K) (v : V) : ∃ s', s.insert k v = .ok s' ∧ Inv s' := by
  by_cases hk : k ∈ s.map
  · exact ⟨s, if_pos hk, h⟩
  · have hlength : (s.map.insert k v).entries.length = s.map.entries.length + 1 := by
      rw [AList.entries_insert_of_notMem hk, List.length_cons]
    have hsize := h.size
    by_cases hfull : s.map.entries.length = s.nMaxSize
    · obtain ⟨x, rmap, hrmap, hinsert⟩ := insert_full h hk hfull v
      have hmirrors := h.mirrors
      have hascending := h.ascending
      rw [hrmap] at hmirrors hascending
      have hexchange := hmirrors.exchange (v := v) hk
      refine ⟨_, hinsert, hexchange, hascending.of_cons.rmapInsert _, h.positive, ?_⟩
      have hcount := hmirrors.length_eq
      rw [← hexchange.length_eq, (perm_rmapInsert _ _).length_eq]
      exact hcount.trans_le hsize
    · refine ⟨{ s with map := s.map.insert k v, rmap := rmapInsert (v, k) s.rmap }, ?_,
        h.mirrors.insert_new hk, h.ascending.rmapInsert _, h.positive, ?_⟩
      · rw [insert, if_neg hk]
        dsimp only
        rw [hlength, if_neg (by omega)]
      · rw [hlength]
        exact Nat.lt_of_le_of_ne hsize hfull

/-- The entry of `rmap` that `erase` and `update` look for is there. -/
theorem Inv.found (h : Inv s) (hv : s.map.lookup k = some v) :
    (v, k) ∈ s.rmap ∧ Mirrors (s.rmap.erase (v, k)) (s.map.erase k) ∧
      Ascending (s.rmap.erase (v, k)) := by
  have hmem := h.mirrors.mem_iff.mpr hv
  exact ⟨hmem, (h.mirrors.of_perm (List.perm_cons_erase hmem).symm).erase,
    h.ascending.sublist List.erase_sublist⟩

theorem erase_inv (h : Inv s) (k : K) : ∃ s', s.erase k = .ok s' ∧ Inv s' := by
  rw [erase]
  cases hv : s.map.lookup k with
  | none => exact ⟨s, rfl, h⟩
  | some v =>
    obtain ⟨hmem, hmirrors, hascending⟩ := h.found hv
    refine ⟨_, if_pos hmem, hmirrors, hascending, h.positive, ?_⟩
    exact (List.kerase_sublist k s.map.entries).length_le.trans h.size

theorem update_inv (h : Inv s) (k : K) (v : V) : ∃ s', s.update k v = .ok s' ∧ Inv s' := by
  rw [update]
  cases hold : s.map.lookup k with
  | none => exact ⟨s, rfl, h⟩
  | some old =>
    obtain ⟨hmem, hmirrors, hascending⟩ := h.found hold
    refine ⟨_, if_pos hmem, hmirrors.insert, hascending.rmapInsert _, h.positive, ?_⟩
    have hlength := (hmirrors.insert (v := v)).length_eq
    have hone := List.length_erase_add_one hmem
    rw [(perm_rmapInsert _ _).length_eq, List.length_cons, hone, h.mirrors.length_eq] at hlength
    exact hlength.symm.trans_le h.size

theorem shrink_inv (size : Nat) {map : AList fun _ : K => V} {rmap : List (V × K)}
    (hmirrors : Mirrors rmap map) (hascending : Ascending rmap) :
    ∃ map' rmap', shrink size map rmap = .ok (map', rmap') ∧ Mirrors rmap' map' ∧
      Ascending rmap' ∧ map'.entries.length ≤ size := by
  induction rmap generalizing map with
  | nil =>
    have hempty : map.entries.length = 0 := hmirrors.length_eq.symm
    refine ⟨map, [], ?_, hmirrors, hascending, by omega⟩
    rw [shrink, if_neg (by omega)]
  | cons x rmap ih =>
    rw [shrink]
    split
    · exact ih hmirrors.erase hascending.of_cons
    · rename_i hle
      exact ⟨map, x :: rmap, rfl, hmirrors, hascending, Nat.le_of_not_lt hle⟩

/-- No call fails, but `max_size(0)`. -/
theorem step_inv (h : Inv s) (op : Op K V) :
    op = .maxSize 0 ∧ s.step op = .error .notPositive ∨ ∃ s', s.step op = .ok s' ∧ Inv s' := by
  cases op with
  | insert k v => exact .inr (insert_inv h k v)
  | erase k => exact .inr (erase_inv h k)
  | update k v => exact .inr (update_inv h k v)
  | maxSize size =>
    by_cases hsize : size = 0
    · subst hsize
      exact .inl ⟨rfl, rfl⟩
    · obtain ⟨map, rmap, hshrink, hmirrors, hascending, hle⟩ :=
        shrink_inv size h.mirrors h.ascending
      refine .inr ⟨⟨map, rmap, size⟩, ?_, hmirrors, hascending, Nat.pos_of_ne_zero hsize, hle⟩
      rw [step, maxSize, if_neg hsize, hshrink]
      rfl

/-- The maps that calls lead to. -/
inductive Reaches : LimitedMap K V → Prop
  | new {s : LimitedMap K V} (n : Nat) : new n = .ok s → Reaches s
  | step {s s' : LimitedMap K V} (op : Op K V) : Reaches s → s.step op = .ok s' → Reaches s'

theorem Reaches.inv {s : LimitedMap K V} (h : Reaches s) : s.Inv := by
  induction h with
  | new n hnew => exact inv_new hnew
  | step op _ hstep ih =>
    rcases step_inv ih op with ⟨-, herror⟩ | ⟨s', hok, hinv⟩
    · rw [hstep] at herror
      cases herror
    · rw [hstep] at hok
      cases hok
      exact hinv

/-- `kept` are the `n` elements with the highest values among the old ones and the new one. -/
def KeepsHighest (n : Nat) (old : AList fun _ : K => V) (k : K) (v : V)
    (kept : AList fun _ : K => V) : Prop :=
  kept.entries.length = n ∧
    (∀ k' v', kept.lookup k' = some v' → (old.insert k v).lookup k' = some v') ∧
    ∀ k₁ v₁ k₂ v₂, (old.insert k v).lookup k₁ = some v₁ → k₁ ∉ kept → kept.lookup k₂ = some v₂ →
      v₁ ≤ v₂

theorem keepsHighest_iff {s : LimitedMap K V} {k : K} {v : V} (h : s.Inv) (hk : k ∉ s.map)
    (hfull : s.map.entries.length = s.nMaxSize) :
    ∃ s', s.insert k v = .ok s' ∧
      (KeepsHighest s.nMaxSize s.map k v s'.map ↔ ∃ k₀ v₀, s.map.lookup k₀ = some v₀ ∧ v₀ ≤ v) := by
  obtain ⟨⟨v₀, k₀⟩, rmap, hrmap, hinsert⟩ := insert_full h hk hfull v
  refine ⟨_, hinsert, ?_⟩
  have hlookup : s.map.lookup k₀ = some v₀ := by
    rw [← h.mirrors.mem_iff, hrmap]
    exact List.mem_cons_self
  have hne : k ≠ k₀ := by
    rintro rfl
    exact hk (AList.lookup_isSome.mp (by rw [hlookup]; rfl))
  have hlowest : ∀ {k' v'}, s.map.lookup k' = some v' → v₀ ≤ v' := by
    intro k' v' hv'
    have hmem := h.mirrors.mem_iff.mpr hv'
    have hascending := h.ascending
    rw [hrmap] at hmem hascending
    rcases List.mem_cons.mp hmem with heq | hmem
    · cases heq
      exact le_refl _
    · exact (List.pairwise_cons.mp hascending).1 _ hmem
  have hkept : ((s.map.insert k v).erase k₀).entries.length = s.nMaxSize := by
    have hmirrors := h.mirrors
    rw [hrmap] at hmirrors
    rw [← (hmirrors.exchange (v := v) hk).length_eq, (perm_rmapInsert _ _).length_eq, ← hfull,
      ← hmirrors.length_eq]
    rfl
  have hother : ∀ {k'}, k' ≠ k₀ →
      ((s.map.insert k v).erase k₀).lookup k' = (s.map.insert k v).lookup k' :=
    fun hk' => AList.lookup_erase_ne hk'
  constructor
  · rintro ⟨-, -, hhighest⟩
    refine ⟨k₀, v₀, hlookup, hhighest k₀ v₀ k v ?_ ?_ ?_⟩
    · rw [AList.lookup_insert_ne hne.symm, hlookup]
    · simp
    · rw [hother hne, AList.lookup_insert]
  · rintro ⟨k', v', hv', hle⟩
    refine ⟨hkept, fun k₁ v₁ hv₁ => ?_, fun k₁ v₁ k₂ v₂ hv₁ hk₁ hv₂ => ?_⟩
    · by_cases hk₁ : k₁ = k₀
      · rw [hk₁, AList.lookup_erase] at hv₁
        cases hv₁
      · rwa [hother hk₁] at hv₁
    · have hk₁' : k₁ = k₀ := by
        by_contra hne₁
        apply hk₁
        rw [← AList.lookup_isSome, hother hne₁, hv₁]
        rfl
      rw [hk₁', AList.lookup_insert_ne hne.symm, hlookup] at hv₁
      cases hv₁
      by_cases hk₂ : k₂ = k
      · rw [hk₂, hother hne, AList.lookup_insert] at hv₂
        cases hv₂
        exact (hlowest hv').trans hle
      · by_cases hk₂' : k₂ = k₀
        · rw [hk₂', AList.lookup_erase] at hv₂
          cases hv₂
        · rw [hother hk₂', AList.lookup_insert_ne hk₂] at hv₂
          exact hlowest hv₂

/-- Whatever calls were made: the two maps mirror each other, nothing but `max_size(0)` fails, and
the size is within the maximum. An insertion into a full map keeps the elements with the highest
values exactly if the new value is not below all the others. -/
theorem limitedmap_laws {s : LimitedMap K V} (h : Reaches s) :
    Mirrors s.rmap s.map ∧ s.map.entries.length ≤ s.nMaxSize ∧
      (∀ op, op = .maxSize 0 ∧ s.step op = .error .notPositive ∨ ∃ s', s.step op = .ok s') ∧
      ∀ k v, k ∉ s.map → s.map.entries.length = s.nMaxSize → ∃ s', s.insert k v = .ok s' ∧
        (KeepsHighest s.nMaxSize s.map k v s'.map ↔
          ∃ k₀ v₀, s.map.lookup k₀ = some v₀ ∧ v₀ ≤ v) := by
  refine ⟨h.inv.mirrors, h.inv.size, fun op => ?_, fun k v hk hfull =>
    keepsHighest_iff h.inv hk hfull⟩
  rcases step_inv h.inv op with hzero | ⟨s', hok, -⟩
  · exact .inl hzero
  · exact .inr ⟨s', hok⟩

/-- A map with room for one element, with the value 5 for the key 1. -/
def oneElement : LimitedMap Nat Nat :=
  ⟨AList.singleton 1 5, [(5, 1)], 1⟩

theorem reaches_oneElement : Reaches oneElement :=
  .step (.insert 1 5) (.new 1 rfl) rfl

theorem limitedmap_laws_oneElement : ∃ s', oneElement.insert 2 7 = .ok s' ∧
    KeepsHighest 1 oneElement.map 2 7 s'.map := by
  obtain ⟨s', hinsert, hiff⟩ := (limitedmap_laws reaches_oneElement).2.2.2 2 7 (by decide) rfl
  exact ⟨s', hinsert, hiff.mpr ⟨1, 5, rfl, by decide⟩⟩

/-- The new element 3 replaces the element 5. -/
theorem lower_value_replaces : Reaches oneElement ∧ ∃ s', oneElement.insert 2 3 = .ok s' ∧
    ¬ KeepsHighest 1 oneElement.map 2 3 s'.map := by
  refine ⟨reaches_oneElement, ⟨AList.singleton 2 3, [(3, 2)], 1⟩, rfl, ?_⟩
  rintro ⟨-, -, hhighest⟩
  have hle : 5 ≤ 3 := hhighest 1 5 2 3 rfl (by decide) rfl
  omega

end LimitedMap

end Verium
