import Mathlib.Data.Nat.Basic
import Mathlib.Order.WellFounded
import Verium.Lib.Outcome

/-!
Iteration. Runs of a system in which an action takes a state to the next one, and what holds
along them; loops whose number of rounds is not known beforehand, which end when every round keeps
an invariant and makes a measure smaller; the binary search `std::lower_bound`; and the iteration
of a function over the blocks of a string.
-/

namespace Verium.Lib

section Runs

variable {σ α : Type*}

/-- Every action of the run satisfies `Good` in the state it is taken in. -/
def Along (next : σ → α → σ) (Good : σ → α → Prop) : σ → List α → Prop
  | _, [] => True
  | s, a :: as => Good s a ∧ Along next Good (next s a) as

namespace Along

variable {next : σ → α → σ} {Good Good' : σ → α → Prop} {I : σ → Prop} {s : σ} {as : List α}

theorem invariant (hstep : ∀ s a, I s → Good s a → I (next s a)) (hs : I s)
    (h : Along next Good s as) : I (as.foldl next s) := by
  induction as generalizing s with
  | nil => exact hs
  | cons a as ih => exact ih (hstep s a hs h.1) h.2

end Along

end Runs

section Loops

universe u v

variable {ε : Type u} {σ ρ : Type v}

/-- At most `fuel` rounds of a loop: `inl` goes round again, `inr` leaves. -/
def runLoop (body : σ → Except ε (σ ⊕ ρ)) : (fuel : Nat) → σ → Option (Except ε ρ)
  | 0, _ => none
  | fuel + 1, s =>
      match body s with
      | .error e => some (.error e)
      | .ok (.inr result) => some (.ok result)
      | .ok (.inl s') => runLoop body fuel s'

/-- A loop that keeps `Inv`, makes `measure` smaller in each round and can only leave with a
result in `Post` ends with such a result, and more fuel does not change it. -/
theorem runLoop_total (body : σ → Except ε (σ ⊕ ρ)) {μ : Type*} [LT μ] [WellFoundedLT μ]
    (measure : σ → μ) (Inv : σ → Prop) (Post : ρ → Prop) (hround : ∀ s, Inv s →
      (∃ s', body s = .ok (.inl s') ∧ Inv s' ∧ measure s' < measure s) ∨
        ∃ result, body s = .ok (.inr result) ∧ Post result) (s : σ) (hs : Inv s) :
    ∃ rounds result, Post result ∧
      ∀ fuel, rounds ≤ fuel → runLoop body fuel s = some (.ok result) := by
  induction hm : measure s using WellFoundedLT.induction generalizing s with
  | ind m ih =>
    subst hm
    rcases hround s hs with ⟨s', hbody, hinv, hlt⟩ | ⟨result, hbody, hpost⟩
    · obtain ⟨rounds, result, hpost, hrun⟩ := ih (measure s') hlt s' hinv rfl
      refine ⟨rounds + 1, result, hpost, ?_⟩
      intro fuel hfuel
      obtain ⟨fuel, rfl⟩ : ∃ k, fuel = k + 1 := ⟨fuel - 1, by omega⟩
      rw [runLoop, hbody]
      exact hrun fuel (by omega)
    · refine ⟨1, result, hpost, ?_⟩
      intro fuel hfuel
      obtain ⟨fuel, rfl⟩ : ∃ k, fuel = k + 1 := ⟨fuel - 1, by omega⟩
      rw [runLoop, hbody]

end Loops

section LowerBound

variable {ε : Type} (comp : Nat → Except ε Bool)

/-- The search in the `len` positions from `first` on. -/
def lowerBoundLoop : (fuel first len : Nat) → Except ε Nat
  | 0, first, _ => .ok first
  | fuel + 1, first, len =>
      if len = 0 then .ok first
      else do
        let half := len / 2
        if ← comp (first + half) then lowerBoundLoop fuel (first + half + 1) (len - half - 1)
        else lowerBoundLoop fuel first half

def lowerBound (n : Nat) : Except ε Nat :=
  lowerBoundLoop comp n 0 n

variable {comp} {n : Nat} {q : Nat → Bool}

theorem lowerBoundLoop_ok (hcomp : ∀ i < n, comp i = .ok (q i))
    (hmono : ∀ i j, i ≤ j → j < n → q j = true → q i = true) {fuel first len : Nat}
    (hfuel : len ≤ fuel) (hend : first + len ≤ n) (hbelow : ∀ i < first, q i = true)
    (habove : ∀ i < n, first + len ≤ i → q i = false) :
    ∃ k ≤ n, lowerBoundLoop comp fuel first len = .ok k ∧ ∀ i < n, q i = true ↔ i < k := by
  induction fuel generalizing first len with
  | zero =>
    refine ⟨first, by omega, rfl, fun i hi => ⟨fun hq => ?_, hbelow i⟩⟩
    by_contra hge
    rw [habove i hi (by omega)] at hq
    cases hq
  | succ fuel ih =>
    rw [lowerBoundLoop]
    split
    · refine ⟨first, by omega, rfl, fun i hi => ⟨fun hq => ?_, hbelow i⟩⟩
      by_contra hge
      rw [habove i hi (by omega)] at hq
      cases hq
    · have hmid : first + len / 2 < n := by omega
      dsimp only
      rw [hcomp _ hmid, ok_bind]
      cases hq : q (first + len / 2) with
      | true =>
        exact ih (by omega) (by omega)
          (fun i hi => hmono i _ (by omega) hmid hq) (fun i hi hle => habove i hi (by omega))
      | false =>
        refine ih (by omega) (by omega) hbelow fun i hi hle => ?_
        by_contra hne
        rw [hmono _ i hle hi (by simpa using hne)] at hq
        cases hq

theorem lowerBound_ok (hcomp : ∀ i < n, comp i = .ok (q i))
    (hmono : ∀ i j, i ≤ j → j < n → q j = true → q i = true) :
    ∃ k ≤ n, lowerBound comp n = .ok k ∧ ∀ i < n, q i = true ↔ i < k :=
  lowerBoundLoop_ok hcomp hmono (Nat.le_refl n) (by omega) (by omega) (by omega)

end LowerBound

section Blocks

variable {σ α : Type} (compress : σ → List α → σ) (size : Nat)

/-- Iterate over the first `n` blocks. -/
def absorb : (n : Nat) → σ → List α → σ
  | 0, s, _ => s
  | n + 1, s, l => absorb n (compress s (l.take size)) (l.drop size)

variable {compress size} {s : σ} {l r : List α} {m n : Nat}

theorem absorb_append (h : n * size ≤ l.length) :
    absorb compress size n s (l ++ r) = absorb compress size n s l := by
  induction n generalizing s l with
  | zero => rfl
  | succ n ih =>
    rw [Nat.succ_mul] at h
    rw [absorb, absorb, List.take_append_of_le_length (by omega),
      List.drop_append_of_le_length (by omega)]
    exact ih (by rw [List.length_drop]; omega)

theorem absorb_add :
    absorb compress size (m + n) s l =
      absorb compress size n (absorb compress size m s l) (l.drop (m * size)) := by
  induction m generalizing s l with
  | zero => simp [absorb]
  | succ m ih =>
    rw [Nat.succ_add, absorb, ih, absorb, List.drop_drop, Nat.succ_mul, Nat.add_comm size]

/-- Iterating on, over what is left behind the first blocks and what follows. -/
theorem absorb_add_append (h : m * size ≤ l.length) :
    absorb compress size (m + n) s (l ++ r) =
      absorb compress size n (absorb compress size m s l) (l.drop (m * size) ++ r) := by
  rw [absorb_add, absorb_append h, List.drop_append_of_le_length h]

end Blocks

end Verium.Lib
