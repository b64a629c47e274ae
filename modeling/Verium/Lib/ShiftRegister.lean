import Mathlib.Tactic

/-!
Linear feedback shift registers in a machine word, as checksums use them. The register holds `m + 1`
symbols of `b` bits; a step shifts it by one symbol, adds the multiple of the feedback polynomial
that the symbol shifted out asks for, and adds the next input symbol. If the lowest coefficients of
the feedback determine the symbol shifted out, a step loses nothing, so that two inputs that differ
within a window of `m + 1` symbols leave the register in different states.
-/

namespace Verium.Lib.ShiftRegister

variable {w : Nat}

/-- Only the lowest `k` bits can be set. -/
def Below (k : Nat) (x : BitVec w) : Prop :=
  ∀ i, k ≤ i → x.getLsbD i = false

/-- The lowest `k` bits. -/
def mask (w k : Nat) : BitVec w :=
  BitVec.ofNat w (2 ^ k - 1)

/-- The sum of the taps whose bit is set. -/
def feedback : List (BitVec w) → (Nat → Bool) → BitVec w
  | [], _ => 0
  | tap :: taps, f => (if f 0 then tap else 0) ^^^ feedback taps fun i => f (i + 1)

/-- A register of `m + 1` symbols of `b` bits, given by its feedback for each bit of the symbol
that is shifted out. -/
structure Register (w b m : Nat) where
  taps : List (BitVec w)
  length_taps : taps.length = b
  taps_below : ∀ tap ∈ taps, Below (b * (m + 1)) tap
  fits : b * (m + 1) ≤ w
  /-- The lowest symbol of the feedback tells which symbol was shifted out. -/
  independent : ∀ s < 2 ^ b, (∀ i < b, (feedback taps s.testBit).getLsbD i = false) → s = 0

namespace Register

variable {b m : Nat} (R : Register w b m)

/-- The register after a step with the input symbol zero. -/
def next (c : BitVec w) : BitVec w :=
  ((c &&& mask w (b * m)) <<< b) ^^^ feedback R.taps fun i => c.getLsbD (b * m + i)

def step (c v : BitVec w) : BitVec w :=
  R.next c ^^^ v

def run (c : BitVec w) (vs : List (BitVec w)) : BitVec w :=
  vs.foldl R.step c

end Register

/-- The `k` lowest symbols, the highest first. -/
def symbols (b k : Nat) (x : BitVec w) : List (BitVec w) :=
  (List.range k).map fun i => (x >>> (b * (k - 1 - i))) &&& mask w b

section Bits

variable {k l : Nat} {x y : BitVec w}

theorem getLsbD_mask (k i : Nat) : (mask w k).getLsbD i = (decide (i < w) && decide (i < k)) := by
  rw [mask, BitVec.getLsbD_ofNat, Nat.testBit_two_pow_sub_one]

theorem below_iff : Below k x ↔ x.toNat < 2 ^ k := by
  constructor
  · exact fun h => Nat.lt_pow_two_of_testBit _ h
  · exact fun h i hi => Nat.testBit_lt_two_pow (h.trans_le (Nat.pow_le_pow_right two_pos hi))

theorem Below.mono (h : Below k x) (hkl : k ≤ l) : Below l x := fun i hi => h i (hkl.trans hi)

theorem Below.xor (hx : Below k x) (hy : Below k y) : Below k (x ^^^ y) := by
  intro i hi
  rw [BitVec.getLsbD_xor, hx i hi, hy i hi]
  rfl

theorem below_zero (k : Nat) : Below k (0 : BitVec w) := by
  intro i _
  simp

theorem below_mask (x : BitVec w) : Below k (x &&& mask w k) := by
  intro i hi
  rw [BitVec.getLsbD_and, getLsbD_mask, decide_eq_false (not_lt.mpr hi), Bool.and_false,
    Bool.and_false]

theorem Below.shiftLeft (hx : Below k x) (b : Nat) : Below (b + k) (x <<< b) := by
  intro i hi
  rw [BitVec.getLsbD_shiftLeft, hx (i - b) (by omega), Bool.and_false]

theorem Below.ushiftRight {b : Nat} (hx : Below (b + k) x) : Below k (x >>> b) := by
  intro i hi
  rw [BitVec.getLsbD_ushiftRight, hx (b + i) (by omega)]

theorem and_mask_eq (hx : Below k x) : x &&& mask w k = x := by
  apply BitVec.eq_of_getLsbD_eq
  intro i hi
  rw [BitVec.getLsbD_and, getLsbD_mask, decide_eq_true hi, Bool.true_and]
  by_cases hik : i < k
  · rw [decide_eq_true hik, Bool.and_true]
  · rw [hx i (not_lt.mp hik), Bool.false_and]

theorem eq_zero_of_below_zero (hx : Below 0 x) : x = 0 := by
  apply BitVec.eq_of_getLsbD_eq
  intro i _
  rw [hx i (Nat.zero_le i)]
  simp

theorem shiftLeft_xor_eq_zero {b : Nat} (hx : Below k x) (hfit : b + k ≤ w) (hy : Below b y)
    (h : (x <<< b) ^^^ y = 0) : x = 0 ∧ y = 0 := by
  have hbit : ∀ i, ((x <<< b) ^^^ y).getLsbD i = false := by
    intro i
    rw [h]
    simp
  constructor
  · apply BitVec.eq_of_getLsbD_eq
    intro i hi
    by_cases hik : i < k
    · have hib := hbit (b + i)
      rw [BitVec.getLsbD_xor, hy (b + i) (by omega), BitVec.getLsbD_shiftLeft,
        decide_eq_true (by omega : b + i < w), decide_eq_false (by omega : ¬ b + i < b)] at hib
      simpa using hib
    · rw [hx i (not_lt.mp hik)]
      simp
  · apply BitVec.eq_of_getLsbD_eq
    intro i hi
    by_cases hib : i < b
    · have hbi := hbit i
      rw [BitVec.getLsbD_xor, BitVec.getLsbD_shiftLeft, decide_eq_true hib] at hbi
      simpa using hbi
    · rw [hy i (not_lt.mp hib)]
      simp

/-- A word is its upper part, shifted back, and its lowest symbol. -/
theorem ushiftRight_shiftLeft_xor (x : BitVec w) (b : Nat) :
    ((x >>> b) <<< b) ^^^ (x &&& mask w b) = x := by
  apply BitVec.eq_of_getLsbD_eq
  intro i hi
  rw [BitVec.getLsbD_xor, BitVec.getLsbD_shiftLeft, BitVec.getLsbD_ushiftRight,
    BitVec.getLsbD_and, getLsbD_mask, decide_eq_true hi]
  by_cases hib : i < b
  · simp [hib]
  · have hsum : b + (i - b) = i := by omega
    simp [hib, hsum]

/-- A tap behind a test of the symbol that was shifted out. -/
theorem ite_xor (p : Bool) (x y : BitVec w) :
    (if p then x ^^^ y else x) = x ^^^ if p then y else 0 := by
  cases p <;> simp

theorem xor_eq_zero_iff : x ^^^ y = 0 ↔ x = y := by
  constructor
  · intro h
    have hcancel := congrArg (· ^^^ y) h
    simpa [BitVec.xor_assoc] using hcancel
  · rintro rfl
    simp

end Bits

section Feedback

variable {k : Nat} {taps : List (BitVec w)} {f g : Nat → Bool}

theorem feedback_xor (taps : List (BitVec w)) (f g : Nat → Bool) :
    feedback taps (fun i => f i ^^ g i) = feedback taps f ^^^ feedback taps g := by
  induction taps generalizing f g with
  | nil => simp [feedback]
  | cons tap taps ih =>
    have hhead : (if f 0 ^^ g 0 then tap else 0) =
        (if f 0 then tap else 0) ^^^ if g 0 then tap else 0 := by
      cases f 0 <;> cases g 0 <;> simp
    rw [feedback, feedback, feedback, ih, hhead]
    ac_rfl

theorem feedback_eq_zero (h : ∀ i < taps.length, f i = false) : feedback taps f = 0 := by
  induction taps generalizing f with
  | nil => rfl
  | cons tap taps ih =>
    rw [feedback, h 0 (Nat.succ_pos _), ih fun i hi => h (i + 1) (Nat.succ_lt_succ hi)]
    simp

theorem feedback_below (h : ∀ tap ∈ taps, Below k tap) (f : Nat → Bool) :
    Below k (feedback taps f) := by
  induction taps generalizing f with
  | nil => exact below_zero k
  | cons tap taps ih =>
    obtain ⟨htap, htaps⟩ := List.forall_mem_cons.mp h
    rw [feedback]
    apply Below.xor _ (ih htaps _)
    split
    · exact htap
    · exact below_zero k

end Feedback

namespace Register

variable {b m : Nat} (R : Register w b m) {a a' c x : BitVec w}

theorem next_xor (a a' : BitVec w) : R.next (a ^^^ a') = R.next a ^^^ R.next a' := by
  have hlow : (a ^^^ a') &&& mask w (b * m) =
      (a &&& mask w (b * m)) ^^^ (a' &&& mask w (b * m)) := by
    apply BitVec.eq_of_getLsbD_eq
    intro i _
    simp only [BitVec.getLsbD_and, BitVec.getLsbD_xor]
    cases (mask w (b * m)).getLsbD i <;> simp
  simp only [next, BitVec.getLsbD_xor, feedback_xor, hlow, BitVec.shiftLeft_xor_distrib]
  ac_rfl

theorem next_of_below (h : Below (b * m) c) : R.next c = c <<< b := by
  have hfeedback : feedback R.taps (fun i => c.getLsbD (b * m + i)) = 0 :=
    feedback_eq_zero fun i _ => h _ (Nat.le_add_right _ _)
  rw [next, hfeedback, and_mask_eq h]
  simp

theorem next_below (c : BitVec w) : Below (b * (m + 1)) (R.next c) := by
  apply Below.xor
  · exact ((below_mask c).shiftLeft b).mono (by rw [mul_add, mul_one, add_comm])
  · exact feedback_below R.taps_below _

theorem eq_zero_of_next (h : Below (b * (m + 1)) c) (hnext : R.next c = 0) : c = 0 := by
  have htestBit : (c.toNat >>> (b * m)).testBit = fun i => c.getLsbD (b * m + i) :=
    funext fun i => Nat.testBit_shiftRight c.toNat
  have htop : c.toNat >>> (b * m) = 0 := by
    apply R.independent
    · rw [Nat.shiftRight_eq_div_pow, Nat.div_lt_iff_lt_mul (by positivity), ← pow_add, add_comm b,
        ← Nat.mul_succ]
      exact below_iff.mp h
    · intro i hi
      have hbit := congrArg (fun x : BitVec w => x.getLsbD i) hnext
      simp only [next, BitVec.getLsbD_xor, BitVec.getLsbD_shiftLeft, decide_eq_true hi] at hbit
      rw [htestBit]
      simpa using hbit
  have hlow : Below (b * m) c := by
    rw [below_iff]
    rw [Nat.shiftRight_eq_div_pow] at htop
    exact (Nat.div_eq_zero_iff_lt (by positivity)).mp htop
  have hfits := R.fits
  rw [mul_add, mul_one] at hfits
  rw [R.next_of_below hlow] at hnext
  apply (shiftLeft_xor_eq_zero hlow (by omega) (below_zero b) _).1
  rw [hnext]
  simp

theorem next_injective (ha : Below (b * (m + 1)) a) (ha' : Below (b * (m + 1)) a')
    (h : R.next a = R.next a') : a = a' := by
  apply xor_eq_zero_iff.mp
  apply R.eq_zero_of_next (ha.xor ha')
  rw [next_xor, h]
  simp

theorem run_append (c : BitVec w) (vs vs' : List (BitVec w)) :
    R.run c (vs ++ vs') = R.run (R.run c vs) vs' :=
  List.foldl_append

theorem step_xor (a a' v v' : BitVec w) :
    R.step a v ^^^ R.step a' v' = R.next (a ^^^ a') ^^^ (v ^^^ v') := by
  rw [next_xor, step, step]
  ac_rfl

theorem step_below {v : BitVec w} (hv : Below b v) : Below (b * (m + 1)) (R.step c v) := by
  apply (R.next_below c).xor (hv.mono _)
  exact Nat.le_mul_of_pos_right b (Nat.succ_pos m)

theorem run_below {vs : List (BitVec w)} (hc : Below (b * (m + 1)) c) (hvs : ∀ v ∈ vs, Below b v) :
    Below (b * (m + 1)) (R.run c vs) := by
  induction vs generalizing c with
  | nil => exact hc
  | cons v vs ih =>
    obtain ⟨hv, hvs⟩ := List.forall_mem_cons.mp hvs
    exact ih (R.step_below hv) hvs

theorem run_ne {vs : List (BitVec w)} (ha : Below (b * (m + 1)) a) (ha' : Below (b * (m + 1)) a')
    (hvs : ∀ v ∈ vs, Below b v) (h : a ≠ a') : R.run a vs ≠ R.run a' vs := by
  induction vs generalizing a a' with
  | nil => exact h
  | cons v vs ih =>
    obtain ⟨hv, hvs⟩ := List.forall_mem_cons.mp hvs
    apply ih (R.step_below hv) (R.step_below hv) hvs
    intro heq
    apply h
    apply R.next_injective ha ha'
    have hxor := congrArg (· ^^^ v) heq
    simpa [step, BitVec.xor_assoc] using hxor

/-- As long as the difference does not reach the top symbol, no two inputs give the same state. -/
theorem run_ne_of_window {us us' : List (BitVec w)} (j : Nat) (hdiff : Below (b * j) (a ^^^ a'))
    (hlen : us.length = us'.length) (hj : j + us.length ≤ m + 1) (hus : ∀ v ∈ us, Below b v)
    (hus' : ∀ v ∈ us', Below b v) (hne : a ≠ a' ∨ us ≠ us') : R.run a us ≠ R.run a' us' := by
  induction us generalizing a a' us' j with
  | nil =>
    obtain rfl := List.length_eq_zero_iff.mp hlen.symm
    exact hne.resolve_right (not_not.mpr rfl)
  | cons v us ih =>
    obtain ⟨v', us', rfl⟩ := List.exists_cons_of_length_eq_add_one hlen.symm
    obtain ⟨hv, hus⟩ := List.forall_mem_cons.mp hus
    obtain ⟨hv', hus'⟩ := List.forall_mem_cons.mp hus'
    rw [List.length_cons] at hj
    have hfits := R.fits
    have hbm : b * (m + 1) = b + b * m := by rw [mul_add, mul_one, add_comm]
    have hbj : b * (j + 1) = b + b * j := by rw [mul_add, mul_one, add_comm]
    have hle : b * j ≤ b * m := Nat.mul_le_mul_left b (by omega)
    have hstep : R.step a v ^^^ R.step a' v' = ((a ^^^ a') <<< b) ^^^ (v ^^^ v') := by
      rw [step_xor, R.next_of_below (hdiff.mono hle)]
    apply ih (j + 1) _ (Nat.succ.inj hlen) (by omega) hus hus'
    · -- the difference of the states after the step is not zero if something differed before
      by_cases htail : us = us'
      · left
        intro heq
        rw [← xor_eq_zero_iff, hstep] at heq
        obtain ⟨hstate, hsymbol⟩ :=
          shiftLeft_xor_eq_zero hdiff (by omega) (hv.xor hv') heq
        rcases hne with hne | hne
        · exact hne (xor_eq_zero_iff.mp hstate)
        · exact hne (by rw [xor_eq_zero_iff.mp hsymbol, htail])
      · exact .inr htail
    · rw [hstep, hbj]
      apply (hdiff.shiftLeft b).xor ((hv.xor hv').mono _)
      exact Nat.le_add_right b (b * j)

/-- Inputs that differ only within `m + 1` symbols give different states. -/
theorem run_burst {pre us us' post : List (BitVec w)} (hc : Below (b * (m + 1)) c)
    (hpre : ∀ v ∈ pre, Below b v) (hus : ∀ v ∈ us, Below b v) (hus' : ∀ v ∈ us', Below b v)
    (hpost : ∀ v ∈ post, Below b v) (hlen : us.length = us'.length) (hwindow : us.length ≤ m + 1)
    (hne : us ≠ us') : R.run c (pre ++ us ++ post) ≠ R.run c (pre ++ us' ++ post) := by
  simp only [run_append]
  have hstart := R.run_below hc hpre
  apply R.run_ne (R.run_below hstart hus) (R.run_below hstart hus') hpost
  apply R.run_ne_of_window 0 _ hlen (by omega) hus hus' (.inr hne)
  rw [xor_eq_zero_iff.mpr rfl]
  exact below_zero _

end Register

section Symbols

variable {b k : Nat}

theorem symbols_succ (b k : Nat) (x : BitVec w) :
    symbols b (k + 1) x = symbols b k (x >>> b) ++ [x &&& mask w b] := by
  rw [symbols, List.range_succ, List.map_append]
  congr 1
  · apply List.map_congr_left
    intro i hi
    have hi := List.mem_range.mp hi
    have hshift : b * (k + 1 - 1 - i) = b + b * (k - 1 - i) := by
      obtain ⟨d, rfl⟩ : ∃ d, k = i + 1 + d := ⟨k - (i + 1), by omega⟩
      have h1 : i + 1 + d + 1 - 1 - i = d + 1 := by omega
      have h2 : i + 1 + d - 1 - i = d := by omega
      rw [h1, h2]
      ring
    rw [hshift, BitVec.shiftRight_add]
  · simp

/-- Symbols instead of zeros add the word they come from. -/
theorem Register.run_symbols {m : Nat} (R : Register w b m) (c : BitVec w) (hk : k ≤ m + 1)
    {x : BitVec w} (hx : Below (b * k) x) :
    R.run c (symbols b k x) = R.run c (List.replicate k 0) ^^^ x := by
  induction k generalizing x with
  | zero =>
    rw [mul_zero] at hx
    rw [eq_zero_of_below_zero hx]
    simp [symbols]
  | succ k ih =>
    have hbk : b * (k + 1) = b + b * k := by rw [mul_add, mul_one, add_comm]
    rw [hbk] at hx
    have hup : Below (b * k) (x >>> b) := hx.ushiftRight
    have hshift := R.next_of_below (hup.mono (Nat.mul_le_mul_left b (by omega)))
    rw [symbols_succ, run_append, ih (by omega) hup, List.replicate_succ', run_append]
    simp only [run, List.foldl_cons, List.foldl_nil, step]
    rw [next_xor, hshift]
    conv_rhs => rw [← ushiftRight_shiftLeft_xor x b]
    simp only [BitVec.ofNat_eq_ofNat, BitVec.xor_zero]
    ac_rfl

theorem Register.symbols_injective {m : Nat} (R : Register w b m) {x y : BitVec w}
    (hx : Below (b * (m + 1)) x) (hy : Below (b * (m + 1)) y)
    (h : symbols b (m + 1) x = symbols b (m + 1) y) : x = y := by
  have hrun := R.run_symbols 0 le_rfl hx
  rw [h, R.run_symbols 0 le_rfl hy] at hrun
  have hcancel := congrArg (R.run 0 (List.replicate (m + 1) 0) ^^^ ·) hrun
  simpa [← BitVec.xor_assoc] using hcancel.symm

end Symbols

end Verium.Lib.ShiftRegister
