import Mathlib.Data.Nat.Digits.Lemmas

/-!
The contents of a DER integer that is not negative: the big-endian bytes of the number, with a zero
byte in front exactly where the first byte would otherwise read as a sign. A string of bytes is the
contents of some number if and only if it is not empty, does not start with a sign, and has no zero
byte in front that it could do without.
-/

namespace Verium.Lib.Der

/-- The number that big-endian bytes stand for. -/
def value (bytes : List UInt8) : Nat :=
  Nat.ofDigits 256 (bytes.reverse.map UInt8.toNat)

/-- The big-endian bytes of a number, without a zero in front. -/
def magnitude (n : Nat) : List UInt8 :=
  ((Nat.digits 256 n).map UInt8.ofNat).reverse

/-- The contents octets of a number. -/
def content (n : Nat) : List UInt8 :=
  match magnitude n with
  | [] => [0]
  | b :: rest => if b.toNat < 128 then b :: rest else 0 :: b :: rest

/-- Not empty, not negative, and as short as possible. -/
def IsContent : List UInt8 → Prop
  | [] => False
  | [b] => b.toNat < 128
  | b :: c :: _ => b.toNat < 128 ∧ (b = 0 → 128 ≤ c.toNat)

variable {bytes rest : List UInt8} {b : UInt8} {n : Nat}

theorem map_toNat_lt : ∀ d ∈ bytes.map UInt8.toNat, d < 256 := by
  intro d hd
  obtain ⟨b, -, rfl⟩ := List.mem_map.mp hd
  exact b.toNat_lt

theorem value_cons_zero : value (0 :: rest) = value rest := by
  simp [value, Nat.ofDigits_append]

theorem magnitude_value (h : ∀ b ∈ bytes.head?, b ≠ 0) : magnitude (value bytes) = bytes := by
  have hlt : ∀ d ∈ bytes.reverse.map UInt8.toNat, d < 256 := map_toNat_lt
  have hlast : ∀ hne : bytes.reverse.map UInt8.toNat ≠ [],
      (bytes.reverse.map UInt8.toNat).getLast hne ≠ 0 := by
    intro hne hzero
    rw [List.getLast_map, List.getLast_reverse] at hzero
    refine h _ (List.head?_eq_some_head _) (UInt8.toNat_inj.mp hzero)
  rw [magnitude, value, Nat.digits_ofDigits 256 (by decide) _ hlt hlast, List.map_map]
  have hid : UInt8.ofNat ∘ UInt8.toNat = id := funext fun b => UInt8.ofNat_toNat
  rw [hid, List.map_id, List.reverse_reverse]

theorem value_magnitude (n : Nat) : value (magnitude n) = n := by
  have hid : (Nat.digits 256 n).map (UInt8.toNat ∘ UInt8.ofNat) = Nat.digits 256 n := by
    conv_rhs => rw [← List.map_id (Nat.digits 256 n)]
    refine List.map_congr_left fun d hd => ?_
    exact UInt8.toNat_ofNat_of_lt' (Nat.digits_lt_base (by decide) hd)
  rw [value, magnitude, List.reverse_reverse, List.map_map, hid, Nat.ofDigits_digits]

theorem magnitude_head (n : Nat) : ∀ b ∈ (magnitude n).head?, b ≠ 0 := by
  rintro b hb rfl
  rw [magnitude, List.head?_reverse, List.getLast?_map, Option.mem_def,
    Option.map_eq_some_iff] at hb
  obtain ⟨d, hd, hzero⟩ := hb
  have hmem := List.mem_of_getLast? hd
  have hne : n ≠ 0 := by
    rintro rfl
    simp at hmem
  have hlast := Nat.getLast_digit_ne_zero 256 hne
  rw [List.getLast?_eq_some_getLast (List.ne_nil_of_mem hmem), Option.some.injEq] at hd
  rw [hd] at hlast
  apply hlast
  have := congrArg UInt8.toNat hzero
  rwa [UInt8.toNat_ofNat_of_lt' (Nat.digits_lt_base (by decide) hmem)] at this

theorem isContent_cons_iff :
    IsContent (b :: rest) ↔ b.toNat < 128 ∧ (b = 0 → ∀ c ∈ rest.head?, 128 ≤ c.toNat) := by
  cases rest <;> simp [IsContent]

theorem IsContent.length_pos (h : IsContent bytes) : 0 < bytes.length := by
  cases bytes with
  | nil => exact h.elim
  | cons b rest => exact Nat.succ_pos _

theorem isContent_content (n : Nat) : IsContent (content n) := by
  have hhead := magnitude_head n
  unfold content
  cases h : magnitude n with
  | nil => simp [IsContent]
  | cons b rest =>
    rw [h] at hhead
    have hb : b ≠ 0 := hhead b rfl
    dsimp only
    split
    next hlt => exact isContent_cons_iff.mpr ⟨hlt, fun hzero => absurd hzero hb⟩
    next hge =>
      refine isContent_cons_iff.mpr ⟨by decide, fun _ c hc => ?_⟩
      obtain rfl : b = c := by simpa using hc
      omega

theorem value_content (n : Nat) : value (content n) = n := by
  have hvalue := value_magnitude n
  unfold content
  cases h : magnitude n with
  | nil =>
    rw [h] at hvalue
    rw [← hvalue]
    rfl
  | cons b rest =>
    rw [h] at hvalue
    dsimp only
    split
    · exact hvalue
    · rw [value_cons_zero, hvalue]

/-- The contents of a number are the only ones that stand for it. -/
theorem content_value (h : IsContent bytes) : content (value bytes) = bytes := by
  cases bytes with
  | nil => exact h.elim
  | cons b rest =>
    obtain ⟨hlt, hmin⟩ := isContent_cons_iff.mp h
    by_cases hb : b = 0
    · subst hb
      rw [value_cons_zero]
      cases rest with
      | nil => rfl
      | cons c rest =>
        have hc : 128 ≤ c.toNat := hmin rfl c rfl
        have hne : ∀ b ∈ (c :: rest).head?, b ≠ 0 := by
          rintro b hb rfl
          obtain rfl : c = 0 := by simpa using hb
          exact absurd hc (by decide)
        rw [content, magnitude_value hne]
        exact if_neg (by omega)
    · rw [content, magnitude_value (by simpa using hb)]
      exact if_pos hlt

end Verium.Lib.Der
