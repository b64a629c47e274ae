import Mathlib.Data.List.Basic
import Verium.Lib.Outcome

/-!
Readers of a stream of symbols that either fail or return a value and the rest of the stream.
`Reads` says that a reader takes exactly the given symbols for a value, whatever follows them;
`Codec` adds that it accepts nothing else, so that each value has one encoding.
-/

namespace Verium.Lib

variable {τ ε α β : Type}

abbrev Reader (τ ε : Type) := StateT (List τ) (Except ε)

/-- Take exactly `n` symbols. -/
def readExact (e : ε) (n : Nat) : Reader τ ε (List τ) := fun input =>
  if input.length < n then .error e else .ok (input.take n, input.drop n)

/-- Read `n` values one after the other. -/
def readMany (p : Reader τ ε α) : Nat → Reader τ ε (List α)
  | 0 => pure []
  | n + 1 => do
      let a ← p
      let as ← readMany p n
      return a :: as

/-- Fail if the condition holds. -/
def refuseIf (c : Prop) [Decidable c] (e : ε) : Reader τ ε Unit := fun input =>
  if c then .error e else .ok ((), input)

/-- The reader takes the symbols `b` for the value `a`, whatever follows. -/
def Reads (p : Reader τ ε α) (b : List τ) (a : α) : Prop :=
  ∀ rest, p (b ++ rest) = .ok (a, rest)

/-- The reader accepts exactly the encodings of the valid values. -/
structure Codec (p : Reader τ ε α) (encode : α → List τ) (Valid : α → Prop) : Prop where
  reads : ∀ {a}, Valid a → Reads p (encode a) a
  sound : ∀ {input a rest}, p input = .ok (a, rest) → Valid a ∧ input = encode a ++ rest

section Reading

variable {p : Reader τ ε α} {f : α → Reader τ ε β} {input rest : List τ} {b b' : List τ} {a : α}
  {x : β} {e : ε} {n : Nat}

theorem reader_bind_eq_ok :
    (p >>= f) input = .ok (x, rest) ↔
      ∃ a mid, p input = .ok (a, mid) ∧ f a mid = .ok (x, rest) := by
  change (p input >>= fun r => f r.1 r.2) = _ ↔ _
  rw [bind_eq_ok]
  simp only [Prod.exists]

theorem reader_pure_eq_ok {a' : α} :
    (pure a : Reader τ ε α) input = .ok (a', rest) ↔ a = a' ∧ input = rest := by
  change Except.ok (a, input) = .ok (a', rest) ↔ _
  simp

theorem refuseIf_eq_ok {c : Prop} [Decidable c] {u : Unit} :
    (refuseIf c e : Reader τ ε Unit) input = .ok (u, rest) ↔ ¬ c ∧ input = rest := by
  unfold refuseIf
  split <;> simp_all

theorem readExact_eq_ok :
    readExact e n input = .ok (b, rest) ↔ b.length = n ∧ input = b ++ rest := by
  unfold readExact
  split
  next hshort =>
    constructor
    · intro h
      cases h
    · rintro ⟨rfl, rfl⟩
      rw [List.length_append] at hshort
      omega
  next hlong =>
    constructor
    · intro h
      cases h
      exact ⟨List.length_take_of_le (Nat.not_lt.mp hlong), (List.take_append_drop n input).symm⟩
    · rintro ⟨rfl, rfl⟩
      rw [List.take_left, List.drop_left]

theorem Reads.pure (a : α) : Reads (Pure.pure a : Reader τ ε α) [] a :=
  fun _ => rfl

theorem Reads.bind (hp : Reads p b a) (hf : Reads (f a) b' x) : Reads (p >>= f) (b ++ b') x := by
  intro rest
  rw [List.append_assoc]
  exact reader_bind_eq_ok.mpr ⟨a, b' ++ rest, hp _, hf rest⟩

theorem Reads.refuseIf {c : Prop} [Decidable c] (h : ¬ c) :
    Reads (Lib.refuseIf c e : Reader τ ε Unit) [] () :=
  fun _ => refuseIf_eq_ok.mpr ⟨h, rfl⟩

theorem Reads.map (g : α → β) (hp : Reads p b a) : Reads (do let a ← p; return g a) b (g a) := by
  rw [← List.append_nil b]
  exact hp.bind (Reads.pure (g a))

theorem Reads.lift {r : Except ε α} (h : r = .ok a) :
    Reads (StateT.lift r : Reader τ ε α) [] a := by
  intro rest
  rw [h]
  rfl

theorem Reads.readExact (e : ε) (h : b.length = n) : Reads (Lib.readExact e n) b b :=
  fun _ => readExact_eq_ok.mpr ⟨h, rfl⟩

theorem Reads.readMany {encode : α → List τ} {as : List α} (h : ∀ a ∈ as, Reads p (encode a) a) :
    Reads (Lib.readMany p as.length) (as.flatMap encode) as := by
  induction as with
  | nil => exact Reads.pure []
  | cons a as ih =>
    obtain ⟨ha, has⟩ := List.forall_mem_cons.mp h
    rw [List.flatMap_cons, ← List.append_nil (as.flatMap encode)]
    exact ha.bind ((ih has).bind (Reads.pure (a :: as)))

theorem readMany_sound {encode : α → List τ} {Valid : α → Prop} {as : List α}
    (hp : Codec p encode Valid) (h : readMany p n input = .ok (as, rest)) :
    as.length = n ∧ (∀ a ∈ as, Valid a) ∧ input = as.flatMap encode ++ rest := by
  induction n generalizing input as with
  | zero =>
    obtain ⟨rfl, rfl⟩ := reader_pure_eq_ok.mp h
    exact ⟨rfl, by simp, rfl⟩
  | succ n ih =>
    obtain ⟨a, mid, ha, h⟩ := reader_bind_eq_ok.mp h
    obtain ⟨as', mid', has, h⟩ := reader_bind_eq_ok.mp h
    obtain ⟨rfl, rfl⟩ := reader_pure_eq_ok.mp h
    obtain ⟨hvalid, rfl⟩ := hp.sound ha
    obtain ⟨hlength, hvalids, rfl⟩ := ih has
    refine ⟨by rw [List.length_cons, hlength], List.forall_mem_cons.mpr ⟨hvalid, hvalids⟩, ?_⟩
    rw [List.flatMap_cons, List.append_assoc]

/-- Values in correspondence with those of a codec. -/
theorem Codec.map {encode : α → List τ} {Valid : α → Prop} {Valid' : β → Prop} (g : α → β)
    (g' : β → α) (hp : Codec p encode Valid) (hg : ∀ {a}, Valid a → Valid' (g a) ∧ g' (g a) = a)
    (hg' : ∀ {x}, Valid' x → Valid (g' x) ∧ g (g' x) = x) :
    Codec (do let a ← p; return g a) (fun x => encode (g' x)) Valid' where
  reads := by
    intro x hx
    obtain ⟨hvalid, heq⟩ := hg' hx
    have hread := (hp.reads hvalid).map g
    rw [heq] at hread
    exact hread
  sound := by
    intro input x rest h
    obtain ⟨a, mid, ha, h⟩ := reader_bind_eq_ok.mp h
    obtain ⟨rfl, rfl⟩ := reader_pure_eq_ok.mp h
    obtain ⟨hvalid, rfl⟩ := hp.sound ha
    obtain ⟨hvalid', heq⟩ := hg hvalid
    exact ⟨hvalid', by rw [heq]⟩

end Reading

end Verium.Lib
