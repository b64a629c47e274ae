import Verium.Script.ScriptNum

/-!
Script numbers are sign and magnitude, low byte first, with the sign in the top bit of the last
byte. Each 64-bit number other than the lowest one is read back from its serialization, and a string
is minimal exactly if it is a serialization.
-/

namespace Verium

open Lib

section Bytes

variable {fuel n : Nat} {bytes : Bytes} {back : UInt8}

theorem leNat_concat_zero (bytes : Bytes) : leNat (bytes ++ [0]) = leNat bytes := by
  simp [leNat_concat]

theorem toNat_and_magnitude (b : UInt8) : (b &&& 0x7f).toNat = b.toNat % 128 := by
  rw [UInt8.toNat_and]
  exact Nat.and_two_pow_sub_one_eq_mod b.toNat 7

theorem toNat_or_sign (h : back.toNat < 128) : (back ||| 0x80).toNat = back.toNat + 128 := by
  have hor : (2 ^ 7 * 1 : Nat) + back.toNat = 2 ^ 7 * 1 ||| back.toNat :=
    Nat.two_pow_add_eq_or_of_lt h 1
  rw [UInt8.toNat_or, Nat.or_comm]
  change 2 ^ 7 * 1 ||| back.toNat = _
  rw [← hor]
  omega

theorem and_magnitude_eq (h : back.toNat < 128) : back &&& 0x7f = back := by
  apply UInt8.toNat_inj.mp
  rw [toNat_and_magnitude, Nat.mod_eq_of_lt h]

theorem or_sign_and_magnitude (h : back.toNat < 128) : (back ||| 0x80) &&& 0x7f = back := by
  apply UInt8.toNat_inj.mp
  rw [toNat_and_magnitude, toNat_or_sign h]
  omega

theorem and_magnitude_or_sign (h : 128 ≤ back.toNat) : (back &&& 0x7f) ||| 0x80 = back := by
  have hlt := back.toNat_lt
  apply UInt8.toNat_inj.mp
  rw [toNat_or_sign (by rw [toNat_and_magnitude]; omega), toNat_and_magnitude]
  omega

theorem length_magnitudeBytes (fuel n : Nat) : (magnitudeBytes fuel n).length ≤ fuel := by
  induction fuel generalizing n with
  | zero => simp [magnitudeBytes]
  | succ fuel ih =>
    cases n with
    | zero => simp [magnitudeBytes]
    | succ n => simpa [magnitudeBytes] using ih ((n + 1) / 256)

theorem leNat_magnitudeBytes (h : n < 256 ^ fuel) : leNat (magnitudeBytes fuel n) = n := by
  induction fuel generalizing n with
  | zero =>
    rw [pow_zero] at h
    simp [magnitudeBytes, leNat]
    omega
  | succ fuel ih =>
    cases n with
    | zero => rfl
    | succ n =>
      have hnext : (n + 1) / 256 < 256 ^ fuel := by
        apply Nat.div_lt_of_lt_mul
        rwa [← pow_succ']
      rw [magnitudeBytes, leNat, ih hnext, UInt8.toNat_ofNat']
      · omega
      · simp

theorem magnitudeBytes_back (hn : n < 256 ^ fuel)
    (h : (magnitudeBytes fuel n).getLast? = some back) : back ≠ 0 := by
  induction fuel generalizing n with
  | zero => simp [magnitudeBytes] at h
  | succ fuel ih =>
    cases n with
    | zero => simp [magnitudeBytes] at h
    | succ n =>
      have hnext : (n + 1) / 256 < 256 ^ fuel := by
        apply Nat.div_lt_of_lt_mul
        rwa [← pow_succ']
      rw [magnitudeBytes, List.getLast?_cons] at h
      · cases hrest : (magnitudeBytes fuel ((n + 1) / 256)).getLast? with
        | some last =>
          rw [hrest] at h
          cases h
          exact ih hnext hrest
        | none =>
          -- the only byte
          have hzero := leNat_magnitudeBytes hnext
          rw [List.getLast?_eq_none_iff.mp hrest, leNat] at hzero
          rw [hrest] at h
          cases h
          intro heq
          have htoNat := congrArg UInt8.toNat heq
          rw [Option.getD_none, UInt8.toNat_ofNat', UInt8.toNat_zero] at htoNat
          omega
      · simp

theorem leNat_pos (h : bytes.getLast? = some back) (hback : back ≠ 0) : 0 < leNat bytes := by
  obtain ⟨init, rfl⟩ := List.getLast?_eq_some_iff.mp h
  induction init with
  | nil =>
    have hpos := UInt8.toNat_inj.not.mpr hback
    rw [UInt8.toNat_zero] at hpos
    simp only [List.nil_append, leNat]
    omega
  | cons b init ih =>
    have hrest := ih (by simp)
    rw [List.cons_append, leNat]
    omega

theorem magnitudeBytes_leNat (hlength : bytes.length ≤ fuel)
    (h : ∀ back, bytes.getLast? = some back → back ≠ 0) :
    magnitudeBytes fuel (leNat bytes) = bytes := by
  induction bytes generalizing fuel with
  | nil => cases fuel <;> rfl
  | cons b bytes ih =>
    have hpos : 0 < leNat (b :: bytes) := by
      have hback := List.getLast?_eq_some_getLast (List.cons_ne_nil b bytes)
      exact leNat_pos hback (h _ hback)
    have hrest : ∀ back, bytes.getLast? = some back → back ≠ 0 := by
      intro back hback
      apply h
      rw [List.getLast?_cons, hback]
      rfl
    cases fuel with
    | zero => simp at hlength
    | succ fuel =>
      obtain ⟨k, hk⟩ := Nat.exists_eq_succ_of_ne_zero (Nat.ne_of_gt hpos)
      have hlt := b.toNat_lt
      have hbyte : UInt8.ofNat (leNat (b :: bytes)) = b := by
        apply UInt8.toNat_inj.mp
        rw [UInt8.toNat_ofNat', leNat]
        omega
      have hdiv : leNat (b :: bytes) / 256 = leNat bytes := by
        rw [leNat]
        omega
      rw [hk, magnitudeBytes, ← hk, hbyte, hdiv, ih (Nat.le_of_succ_le_succ hlength) hrest]
      simp

end Bytes

section Codec

variable {init : Bytes} {back : UInt8} {value : Int}

theorem scriptNumSetVch_concat (init : Bytes) (back : UInt8) :
    scriptNumSetVch (init ++ [back]) =
      if 128 ≤ back.toNat then -(leNat (init ++ [back &&& 0x7f]) : Int)
      else leNat (init ++ [back]) := by
  simp only [scriptNumSetVch, List.getLast?_concat, List.dropLast_concat, and_sign_ne_zero_iff]

theorem scriptNumSetVch_abs (vch : Bytes) : (scriptNumSetVch vch).natAbs < 256 ^ vch.length := by
  unfold scriptNumSetVch
  cases hback : vch.getLast? with
  | none => simp
  | some back =>
    have hlen : (vch.dropLast ++ [back &&& 0x7f]).length = vch.length := by
      have hne : vch ≠ [] := by
        rintro rfl
        cases hback
      have hpos := List.length_pos_iff.mpr hne
      simp
      omega
    dsimp only
    split
    · rw [Int.natAbs_neg, Int.natAbs_natCast, ← hlen]
      exact leNat_lt _
    · rw [Int.natAbs_natCast]
      exact leNat_lt vch

theorem scriptNumSerialize_concat (h : magnitudeBytes 8 value.natAbs = init ++ [back]) :
    scriptNumSerialize value =
      if 128 ≤ back.toNat then init ++ [back] ++ [if value < 0 then 0x80 else 0]
      else if value < 0 then init ++ [back ||| 0x80]
      else init ++ [back] := by
  simp only [scriptNumSerialize, h, List.getLast?_concat, List.dropLast_concat,
    and_sign_ne_zero_iff]

theorem isNonMinimalNum_concat (init : Bytes) (back : UInt8) :
    isNonMinimalNum (init ++ [back]) = true ↔
      back &&& 0x7f = 0 ∧ ∀ previous, init.getLast? = some previous → previous.toNat < 128 := by
  rw [isNonMinimalNum, List.reverse_append, List.reverse_singleton, List.singleton_append]
  rcases List.eq_nil_or_concat init with rfl | ⟨init, previous, rfl⟩
  · simp
  · simp [and_sign_eq_zero_iff]

theorem magnitude_cases (h : value.natAbs < 256 ^ 8) :
    value = 0 ∨ ∃ init back, magnitudeBytes 8 value.natAbs = init ++ [back] ∧ back ≠ 0 ∧
      leNat (init ++ [back]) = value.natAbs := by
  have hvalue := leNat_magnitudeBytes h
  rcases List.eq_nil_or_concat (magnitudeBytes 8 value.natAbs) with hnil | ⟨init, back, hconcat⟩
  · left
    rw [hnil, leNat] at hvalue
    omega
  · right
    rw [List.concat_eq_append] at hconcat
    refine ⟨init, back, hconcat, ?_, by rw [← hconcat, hvalue]⟩
    apply magnitudeBytes_back h
    rw [hconcat, List.getLast?_concat]

theorem scriptNumSetVch_serialize (h : value.natAbs < 256 ^ 8) :
    scriptNumSetVch (scriptNumSerialize value) = value := by
  rcases magnitude_cases h with rfl | ⟨init, back, hbytes, -, hvalue⟩
  · rfl
  · rw [scriptNumSerialize_concat hbytes]
    split
    · rw [scriptNumSetVch_concat]
      by_cases hneg : value < 0
      · rw [if_pos hneg]
        simp only [show 128 ≤ (0x80 : UInt8).toNat from le_refl _, if_true,
          show (0x80 : UInt8) &&& 0x7f = 0 from rfl, leNat_concat_zero, hvalue]
        omega
      · rw [if_neg hneg]
        simp only [UInt8.toNat_zero, leNat_concat_zero, hvalue]
        simp
        omega
    · rename_i hlow
      have hlow' : back.toNat < 128 := by omega
      split
      · rw [scriptNumSetVch_concat, if_pos (by rw [toNat_or_sign hlow']; omega),
          or_sign_and_magnitude hlow', hvalue]
        omega
      · rw [scriptNumSetVch_concat, if_neg hlow, hvalue]
        omega

theorem isNonMinimalNum_serialize (h : value.natAbs < 256 ^ 8) :
    isNonMinimalNum (scriptNumSerialize value) = false := by
  rw [Bool.eq_false_iff]
  rcases magnitude_cases h with rfl | ⟨init, back, hbytes, hback, -⟩
  · simp [scriptNumSerialize, magnitudeBytes, isNonMinimalNum]
  · intro hnonMinimal
    rw [scriptNumSerialize_concat hbytes] at hnonMinimal
    split at hnonMinimal
    · rename_i hhigh
      have hlow := ((isNonMinimalNum_concat _ _).mp hnonMinimal).2 back List.getLast?_concat
      omega
    · rename_i hlow
      have hlow' : back.toNat < 128 := by omega
      split at hnonMinimal
      · have hzero := ((isNonMinimalNum_concat _ _).mp hnonMinimal).1
        rw [or_sign_and_magnitude hlow'] at hzero
        exact hback hzero
      · have hzero := ((isNonMinimalNum_concat _ _).mp hnonMinimal).1
        rw [and_magnitude_eq hlow'] at hzero
        exact hback hzero

theorem scriptNumSerialize_setVch {vch : Bytes} (hlength : vch.length ≤ 8)
    (h : isNonMinimalNum vch = false) : scriptNumSerialize (scriptNumSetVch vch) = vch := by
  rcases List.eq_nil_or_concat vch with rfl | ⟨init, back, rfl⟩
  · rfl
  rw [List.concat_eq_append] at hlength h ⊢
  rw [List.length_append, List.length_singleton] at hlength
  rw [Bool.eq_false_iff, ne_eq, isNonMinimalNum_concat, not_and] at h
  -- the value from its sign and its magnitude
  have hvalue : ∀ {init' : Bytes} {last : UInt8} {v : Int}, (init' ++ [last]).length ≤ 8 →
      last ≠ 0 → v.natAbs = leNat (init' ++ [last]) →
      0 < leNat (init' ++ [last]) ∧ magnitudeBytes 8 v.natAbs = init' ++ [last] := by
    intro init' last v hlen hlast hv
    refine ⟨leNat_pos List.getLast?_concat hlast, ?_⟩
    rw [hv]
    apply magnitudeBytes_leNat hlen
    intro c hc
    rw [List.getLast?_concat, Option.some_inj] at hc
    rwa [← hc]
  rw [scriptNumSetVch_concat]
  by_cases hzero : back &&& 0x7f = 0
  · have hprevious := h hzero
    push Not at hprevious
    obtain ⟨previous, hlast, hhigh⟩ := hprevious
    obtain ⟨init', rfl⟩ := List.getLast?_eq_some_iff.mp hlast
    have hne : previous ≠ 0 := by
      rintro rfl
      simp at hhigh
    by_cases hsign : 128 ≤ back.toNat
    · have hback : back = 0x80 := by rw [← and_magnitude_or_sign hsign, hzero]; rfl
      rw [if_pos hsign, hzero, leNat_concat_zero]
      obtain ⟨hpos, hbytes⟩ := @hvalue init' previous (-(leNat (init' ++ [previous]) : Int))
        (by omega) hne (by simp)
      rw [scriptNumSerialize_concat hbytes, if_pos hhigh, if_pos (by omega), hback]
    · have hback : back = 0 := by
        rw [← hzero, and_magnitude_eq (by omega)]
      rw [if_neg hsign, hback, leNat_concat_zero]
      obtain ⟨-, hbytes⟩ := @hvalue init' previous (leNat (init' ++ [previous]) : Int) (by omega)
        hne (by simp)
      rw [scriptNumSerialize_concat hbytes, if_pos hhigh, if_neg (by omega)]
  · by_cases hsign : 128 ≤ back.toNat
    · have hlow : (back &&& 0x7f).toNat < 128 := by
        rw [toNat_and_magnitude]
        omega
      rw [if_pos hsign]
      obtain ⟨hpos, hbytes⟩ := @hvalue init (back &&& 0x7f)
        (-(leNat (init ++ [back &&& 0x7f]) : Int)) (by simpa using hlength) hzero (by simp)
      rw [scriptNumSerialize_concat hbytes, if_neg (by omega), if_pos (by omega),
        and_magnitude_or_sign hsign]
    · rw [if_neg hsign]
      have hne : back ≠ 0 := by
        rintro rfl
        exact hzero rfl
      obtain ⟨-, hbytes⟩ := @hvalue init back (leNat (init ++ [back]) : Int)
        (by simpa using hlength) hne (by simp)
      rw [scriptNumSerialize_concat hbytes, if_neg hsign, if_neg (by omega)]

theorem length_scriptNumSerialize_le (h : value.natAbs < 2 ^ 63) :
    (scriptNumSerialize value).length ≤ 8 := by
  rcases magnitude_cases (h.trans (by norm_num)) with rfl | ⟨init, back, hbytes, -, hvalue⟩
  · simp [scriptNumSerialize, magnitudeBytes]
  · have hlength := length_magnitudeBytes 8 value.natAbs
    rw [hbytes, List.length_append, List.length_singleton] at hlength
    rw [scriptNumSerialize_concat hbytes]
    split
    · -- eight bytes have room for the sign
      rename_i hhigh
      have hlt : init.length < 7 := by
        by_contra hge
        have hpow : 256 ^ 7 ≤ 256 ^ init.length := Nat.pow_le_pow_right (by decide) (by omega)
        have hmul := Nat.mul_le_mul hpow hhigh
        rw [leNat_concat] at hvalue
        omega
      simp
      omega
    · split <;> simpa using hlength

/-- Every 64-bit number but the lowest is read back from its at most eight bytes. A string of at
most eight bytes is accepted as a minimal number exactly if it is the serialization of its value. -/
theorem scriptNum_codec :
    (∀ value : Int, -2 ^ 63 < value → value < 2 ^ 63 → (scriptNumSerialize value).length ≤ 8 ∧
      scriptNumSetVch (scriptNumSerialize value) = value) ∧
    ∀ (vch : Bytes) (nMaxNumSize : Nat), vch.length ≤ 8 → vch.length ≤ nMaxNumSize →
      (scriptNum vch true nMaxNumSize = .ok (scriptNumSetVch vch) ↔
        vch = scriptNumSerialize (scriptNumSetVch vch)) := by
  refine ⟨fun value hlow hhigh => ?_, fun vch nMaxNumSize hlength hmax => ?_⟩
  · have habs : value.natAbs < 2 ^ 63 := by omega
    exact ⟨length_scriptNumSerialize_le habs,
      scriptNumSetVch_serialize (habs.trans (by norm_num))⟩
  · have habs : (scriptNumSetVch vch).natAbs < 256 ^ 8 :=
      (scriptNumSetVch_abs vch).trans_le (Nat.pow_le_pow_right (by decide) hlength)
    have haccepts : scriptNum vch true nMaxNumSize = .ok (scriptNumSetVch vch) ↔
        isNonMinimalNum vch = false := by
      rw [scriptNum, rejectIf_of_not (by omega), ok_bind]
      cases isNonMinimalNum vch <;> simp [rejectIf]
    rw [haccepts]
    constructor
    · intro hminimal
      exact (scriptNumSerialize_setVch hlength hminimal).symm
    · intro heq
      rw [heq]
      exact isNonMinimalNum_serialize habs

/-- The numbers 255 and -255 need a byte for their sign. -/
theorem scriptNum_codec_255 :
    scriptNumSetVch (scriptNumSerialize (-255)) = -255 ∧
      scriptNum [0xff, 0x00] true 5 = .ok 255 :=
  ⟨(scriptNum_codec.1 (-255) (by norm_num) (by norm_num)).2,
    (scriptNum_codec.2 [0xff, 0x00] 5 (by decide) (by decide)).mpr rfl⟩

end Codec

end Verium
