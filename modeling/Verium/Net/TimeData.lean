import Verium.Consensus.Validation
import Verium.Lib.Lists
import Verium.Lib.Wrap

/-!
The time offset that peers report (`timedata.cpp`, `timedata.h`). A 64-bit value is an integer;
where the code may leave the range, the result is wrapped. The offset is zero or the median of the
samples when their number was last odd, within the limit, as long as no sample is `-2 ^ 63`: the
absolute value of that one is negative.
-/

namespace Verium

open Lib

/-- `CMedianFilter<int64_t>` -/
structure CMedianFilter where
  vValues : List Int
  vSorted : List Int
  nSize : Nat

namespace CMedianFilter

def new (size : Nat) (initialValue : Int) : CMedianFilter :=
  ⟨[initialValue], [initialValue], size⟩

def input (filter : CMedianFilter) (value : Int) : CMedianFilter :=
  let kept := if filter.vValues.length = filter.nSize then filter.vValues.tail else filter.vValues
  let vValues := kept ++ [value]
  { filter with vValues, vSorted := vValues.insertionSort (· ≤ ·) }

def median (filter : CMedianFilter) : Result Int := do
  let vSortedSize := filter.vSorted.length
  assertThat (0 < vSortedSize) "vSortedSize > 0"
  if vSortedSize % 2 = 1 then return filter.vSorted.getD (vSortedSize / 2) 0
  else
    let sum := filter.vSorted.getD (vSortedSize / 2 - 1) 0 + filter.vSorted.getD (vSortedSize / 2) 0
    return (wrap64 sum).tdiv 2

end CMedianFilter

def abs64 (n : Int) : Int :=
  if 0 ≤ n then n else wrap64 (-n)

def maxSamples : Nat := 200

/-- The static variables of `AddTimeData`, and `nTimeOffset`. -/
structure TimeData (Ip : Type) where
  setKnown : List Ip
  vTimeOffsets : CMedianFilter
  nTimeOffset : Int
  /-- The warning about the clock has been given. -/
  fDone : Bool

def TimeData.start {Ip : Type} : TimeData Ip :=
  ⟨[], .new maxSamples 0, 0, false⟩

section Add

variable {Ip : Type}

/-- `AddTimeData`, with the value of `-maxtimeadjustment`. -/
def addTimeData [DecidableEq Ip] (maxTimeAdjustment : Int) (s : TimeData Ip)
    (sample : Ip × Int64) : Result (TimeData Ip) := do
  if s.setKnown.length = maxSamples then return s
  if sample.1 ∈ s.setKnown then return s
  let setKnown := sample.1 :: s.setKnown
  let vTimeOffsets := s.vTimeOffsets.input sample.2.toInt
  let size := vTimeOffsets.vValues.length
  if 5 ≤ size ∧ size % 2 = 1 then
    let nMedian ← vTimeOffsets.median
    if abs64 nMedian ≤ max 0 maxTimeAdjustment then
      return { s with setKnown, vTimeOffsets, nTimeOffset := nMedian }
    else
      let fMatch := vTimeOffsets.vSorted.any fun nOffset => nOffset ≠ 0 ∧ abs64 nOffset < 5 * 60
      return ⟨setKnown, vTimeOffsets, 0, s.fDone || !fMatch⟩
  else return { s with setKnown, vTimeOffsets }

/-- What has been sampled: the addresses, the samples that count (after the initial zero), and
those that counted when their number was last odd and at least 5. -/
structure Sampled (Ip : Type) where
  known : List Ip
  samples : List Int
  lastOdd : Option (List Int)

def Sampled.start : Sampled Ip :=
  ⟨[], [0], none⟩

/-- One sample of each address counts, for the first 200 addresses; the oldest gives way when
there are 200. -/
def Sampled.add [DecidableEq Ip] (h : Sampled Ip) (sample : Ip × Int64) : Sampled Ip :=
  if h.known.length = maxSamples ∨ sample.1 ∈ h.known then h
  else
    let samples := (h.samples ++ [sample.2.toInt]).drop (h.samples.length + 1 - maxSamples)
    ⟨sample.1 :: h.known, samples,
      if 5 ≤ samples.length ∧ samples.length % 2 = 1 then some samples else h.lastOdd⟩

/-- The median of an odd number of values: less than half of them are smaller, and less than half
are greater. -/
def IsMedian (l : List Int) (m : Int) : Prop :=
  m ∈ l ∧ 2 * l.countP (· < m) < l.length ∧ 2 * l.countP (m < ·) < l.length

variable {a : Int} {s : TimeData Ip} {h : Sampled Ip} {sample : Ip × Int64}

theorem isMedian_getD {l : List Int} (hodd : l.length % 2 = 1) :
    IsMedian l ((l.insertionSort (· ≤ ·)).getD (l.length / 2) 0) := by
  have hsorted := List.pairwise_insertionSort (· ≤ ·) l
  have hperm := List.perm_insertionSort (· ≤ ·) l
  have hi : l.length / 2 < (l.insertionSort (· ≤ ·)).length := by
    rw [List.length_insertionSort]
    omega
  rw [List.getD_eq_getElem?_getD, List.getElem?_eq_getElem hi, Option.getD_some]
  have hbelow := countP_lt_getElem_le hsorted hi
  have habove := countP_getElem_lt_le hsorted hi
  rw [List.length_insertionSort] at habove
  rw [hperm.countP_eq] at hbelow habove
  exact ⟨hperm.mem_iff.mp (List.getElem_mem hi), by omega, by omega⟩

theorem abs64_eq {n : Int} (hlow : -2 ^ 63 < n) (hhigh : n < 2 ^ 63) : abs64 n = n.natAbs := by
  unfold abs64
  split
  · omega
  · rw [wrap64_of_fits (by omega) (by omega)]
    omega

/-- The state of the code and the samples so far. -/
structure Follows (a : Int) (s : TimeData Ip) (h : Sampled Ip) : Prop where
  known : s.setKnown = h.known
  values : s.vTimeOffsets.vValues = h.samples
  nSize : s.vTimeOffsets.nSize = maxSamples
  length : h.samples.length = min (h.known.length + 1) maxSamples
  range : ∀ x ∈ h.samples, -2 ^ 63 < x ∧ x < 2 ^ 63
  offset : s.nTimeOffset = 0 ∨ ∃ l, h.lastOdd = some l ∧ IsMedian l s.nTimeOffset
  limit : (s.nTimeOffset.natAbs : Int) ≤ max 0 a

theorem follows_start (a : Int) : Follows a (.start : TimeData Ip) .start where
  known := rfl
  values := rfl
  nSize := rfl
  length := rfl
  range := by simp [Sampled.start]
  offset := .inl rfl
  limit := le_max_left 0 a

theorem Follows.input (hs : Follows a s h) (x : Int) :
    (s.vTimeOffsets.input x).vValues =
      (h.samples ++ [x]).drop (h.samples.length + 1 - maxSamples) := by
  have hlen := hs.length
  unfold CMedianFilter.input
  dsimp only
  rw [hs.values, hs.nSize]
  unfold maxSamples at hlen ⊢
  split
  · next hfull =>
    rw [hfull, ← List.drop_one, List.drop_append_of_le_length (by omega)]
  · next hroom =>
    rw [Nat.sub_eq_zero_of_le (by omega), List.drop_zero]

theorem Follows.addTimeData [DecidableEq Ip] (hs : Follows a s h)
    (hsample : sample.2.toInt ≠ -2 ^ 63) :
    ∃ s', addTimeData a s sample = .ok s' ∧ Follows a s' (h.add sample) := by
  unfold Verium.addTimeData Sampled.add
  rw [hs.known]
  by_cases hfull : h.known.length = maxSamples
  · rw [if_pos hfull, if_pos (.inl hfull)]
    exact ⟨s, rfl, hs⟩
  by_cases hknown : sample.1 ∈ h.known
  · rw [if_neg hfull, if_pos hknown, if_pos (.inr hknown)]
    exact ⟨s, rfl, hs⟩
  rw [if_neg hfull, if_neg hknown, if_neg (not_or.mpr ⟨hfull, hknown⟩)]
  have hvalues := hs.input sample.2.toInt
  have hsorted : (s.vTimeOffsets.input sample.2.toInt).vSorted =
      (s.vTimeOffsets.input sample.2.toInt).vValues.insertionSort (· ≤ ·) := rfl
  have hsize : (s.vTimeOffsets.input sample.2.toInt).nSize = maxSamples := hs.nSize
  generalize s.vTimeOffsets.input sample.2.toInt = filter at hvalues hsorted hsize ⊢
  dsimp only
  rw [← hvalues]
  have hlength : filter.vValues.length = min (h.known.length + 1 + 1) maxSamples := by
    have hlen := hs.length
    rw [hvalues, List.length_drop, List.length_append, List.length_singleton]
    omega
  have hrange : ∀ x ∈ filter.vValues, -2 ^ 63 < x ∧ x < 2 ^ 63 := by
    intro x hx
    rw [hvalues] at hx
    rcases List.mem_append.mp (List.mem_of_mem_drop hx) with hold | hnew
    · exact hs.range x hold
    · cases List.mem_singleton.mp hnew
      have hlow := sample.2.le_toInt
      exact ⟨by omega, sample.2.toInt_lt⟩
  split
  · next hodd =>
    have hmedian : filter.median =
        .ok ((filter.vValues.insertionSort (· ≤ ·)).getD (filter.vValues.length / 2) 0) := by
      rw [CMedianFilter.median, hsorted, List.length_insertionSort, assertThat_of (by omega),
        ok_bind, if_pos hodd.2]
      rfl
    have his := isMedian_getD hodd.2
    rw [hmedian, ok_bind]
    generalize (filter.vValues.insertionSort (· ≤ ·)).getD (filter.vValues.length / 2) 0 =
      m at his ⊢
    split
    · next hlimit =>
      rw [abs64_eq (hrange m his.1).1 (hrange m his.1).2] at hlimit
      exact ⟨_, rfl, rfl, rfl, hsize, hlength, hrange, .inr ⟨_, rfl, his⟩, hlimit⟩
    · exact ⟨_, rfl, rfl, rfl, hsize, hlength, hrange, .inl rfl, le_max_left 0 a⟩
  · exact ⟨_, rfl, rfl, rfl, hsize, hlength, hrange, hs.offset, hs.limit⟩

/-- After any calls none of which has the sample `-2 ^ 63`, the offset is zero or the median of the
samples when their number was last odd and at least 5, and it is within the limit. -/
theorem nTimeOffset_bounded [DecidableEq Ip] (a : Int) (calls : List (Ip × Int64))
    (hcalls : ∀ call ∈ calls, call.2.toInt ≠ -2 ^ 63) :
    ∃ s, calls.foldlM (Verium.addTimeData a) .start = .ok s ∧
      (s.nTimeOffset = 0 ∨ ∃ l, (calls.foldl Sampled.add .start).lastOdd = some l ∧
        IsMedian l s.nTimeOffset) ∧
      (s.nTimeOffset.natAbs : Int) ≤ max 0 a := by
  have hrun : ∀ {s : TimeData Ip} {h : Sampled Ip}, Follows a s h →
      ∃ s', calls.foldlM (Verium.addTimeData a) s = .ok s' ∧
        Follows a s' (calls.foldl Sampled.add h) := by
    induction calls with
    | nil => exact fun hs => ⟨_, rfl, hs⟩
    | cons call calls ih =>
      rw [List.forall_mem_cons] at hcalls
      intro s h hs
      obtain ⟨mid, hadd, hmid⟩ := hs.addTimeData hcalls.1
      obtain ⟨s', hrest, hs'⟩ := ih hcalls.2 hmid
      exact ⟨s', foldlM_cons_eq_ok.mpr ⟨mid, hadd, hrest⟩, hs'⟩
  obtain ⟨s, hfold, hs⟩ := hrun (follows_start a)
  exact ⟨s, hfold, hs.offset, hs.limit⟩

end Add

/-- Four peers whose clocks are ten seconds ahead. -/
theorem nTimeOffset_bounded_four : ∃ s,
    [(1, 10), (2, 10), (3, 10), (4, 10)].foldlM (@addTimeData Nat _ 4200) .start = .ok s ∧
      s.nTimeOffset = 10 ∧ (s.nTimeOffset.natAbs : Int) ≤ max 0 4200 := by
  obtain ⟨s, hrun, -, hlimit⟩ := nTimeOffset_bounded 4200
    [((1 : Nat), (10 : Int64)), (2, 10), (3, 10), (4, 10)] (by decide +kernel)
  refine ⟨s, hrun, ?_, hlimit⟩
  cases hrun
  decide +kernel

/-- Four peers that report `-2 ^ 63` move the clock by as much. -/
theorem least_sample_accepted :
    (([(1, Int64.minValue), (2, Int64.minValue), (3, Int64.minValue), (4, Int64.minValue)].foldlM
      (@addTimeData Nat _ 4200) .start).toOption.map TimeData.nTimeOffset) =
      some (-2 ^ 63) := by
  decide +kernel

end Verium
