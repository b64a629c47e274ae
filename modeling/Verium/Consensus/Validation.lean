import Verium.Lib.Outcome

/-!
How a validation function ends when it does not succeed. `CValidationState` and the C++
return value are folded into one result: `Except Failure α` is `ok` when the function
returns true, and otherwise carries what the state says, or the assertion or exception
that stopped the function. The free-text debug messages of the state are left out; the
reject reasons, which peers and callers see, are kept.
-/

namespace Verium

/-- `enum class ValidationInvalidReason`. -/
inductive ValidationInvalidReason where
  | none
  | consensus
  | recentConsensusChange
  | cachedInvalid
  | blockInvalidHeader
  | blockMutated
  | blockMissingPrev
  | blockInvalidPrev
  | blockTimeFuture
  | blockCheckpoint
  | txNotStandard
  | txMissingInputs
  | txPrematureSpend
  | txWitnessMutated
  | txConflict
  | txMempoolPolicy
deriving DecidableEq, Repr

def rejectInvalid : Nat := 0x10
def rejectDuplicate : Nat := 0x12
def rejectNonstandard : Nat := 0x40
def rejectInsufficientFee : Nat := 0x42
def rejectCheckpoint : Nat := 0x43

/-- The ways a function on the validation path ends without success. -/
inductive Failure where
  /-- `state.Invalid(reason, .., chRejectCode, strRejectReason)`. -/
  | invalid (reason : ValidationInvalidReason) (chRejectCode : Nat)
      (strRejectReason : String)
  /-- `state.Error(strRejectReason)`: a run-time error of the node itself. -/
  | error (strRejectReason : String)
  /-- A failed `assert`, which aborts the process. -/
  | assertion (condition : String)
  /-- An exception that leaves the function. -/
  | exception (what : String)
deriving DecidableEq, Repr

/-- `state.IsInvalid()` after the function returned false. -/
def Failure.IsInvalid : Failure → Prop
  | .invalid .. => True
  | _ => False

instance : DecidablePred Failure.IsInvalid
  | .invalid .. => isTrue trivial
  | .error _ => isFalse id
  | .assertion _ => isFalse id
  | .exception _ => isFalse id

/-- `state.GetReason()`. -/
def Failure.getReason : Failure → ValidationInvalidReason
  | .invalid reason .. => reason
  | _ => .none

abbrev Result (α : Type) := Except Failure α

/-- The function returned, with true or with a false that the state explains as invalid;
no assertion failed and no exception escaped. -/
def EndsCleanly {α : Type} (r : Result α) : Prop :=
  ∀ f, r = .error f → f.IsInvalid

/-- `state.Invalid(ValidationInvalidReason::CONSENSUS, .., REJECT_INVALID, reason)`. -/
def consensusInvalid (strRejectReason : String) : Failure :=
  .invalid .consensus rejectInvalid strRejectReason

/-- `assert(condition)`. -/
def assertThat (condition : Prop) [Decidable condition] (text : String) : Result Unit :=
  Lib.rejectIf (¬ condition) (.assertion text)

section EndsCleanly

variable {α β : Type}

@[simp]
theorem endsCleanly_ok (a : α) : EndsCleanly (.ok a) := by
  intro f h
  cases h

@[simp]
theorem endsCleanly_error {f : Failure} : EndsCleanly (.error f : Result α) ↔ f.IsInvalid := by
  constructor
  · intro h
    exact h f rfl
  · intro hf g hg
    cases hg
    exact hf

/-- A sequence ends cleanly exactly when its first part does, and its second part does
whenever it is reached. -/
theorem endsCleanly_bind {x : Result α} {f : α → Result β} :
    EndsCleanly (x >>= f) ↔ EndsCleanly x ∧ ∀ a, x = .ok a → EndsCleanly (f a) := by
  cases x with
  | error e => simp [Lib.error_bind]
  | ok a => simp [Lib.ok_bind]

@[simp]
theorem assertThat_eq_ok {c : Prop} [Decidable c] {text : String} {u : Unit} :
    assertThat c text = .ok u ↔ c := by
  simp [assertThat]

theorem assertThat_of {c : Prop} [Decidable c] {text : String} (h : c) :
    assertThat c text = .ok () :=
  assertThat_eq_ok.mpr h

theorem endsCleanly_rejectIf {c : Prop} [Decidable c] {f : Failure} (hf : f.IsInvalid) :
    EndsCleanly (Lib.rejectIf c f) := by
  unfold Lib.rejectIf
  split <;> simp [hf]

@[simp]
theorem endsCleanly_rejectIf_consensus {c : Prop} [Decidable c] {reason : String} :
    EndsCleanly (Lib.rejectIf c (consensusInvalid reason)) :=
  endsCleanly_rejectIf trivial

theorem endsCleanly_map {g : α → β} {x : Result α} : EndsCleanly (x.map g) ↔ EndsCleanly x := by
  cases x <;> simp [Except.map]

theorem endsCleanly_mapError {g : Failure → Failure} (hg : ∀ f, (g f).IsInvalid ↔ f.IsInvalid)
    {x : Result α} : EndsCleanly (x.mapError g) ↔ EndsCleanly x := by
  cases x <;> simp [Except.mapError, hg]

theorem endsCleanly_foldlM {f : β → α → Result β} {l : List α} {s : β} :
    EndsCleanly (l.foldlM f s) ↔
      ∀ pre a post u, l = pre ++ a :: post → pre.foldlM f s = .ok u → EndsCleanly (f u a) := by
  constructor
  · intro h pre a post u hl hpre failure hfail
    exact h failure (Lib.foldlM_eq_error_iff.mpr ⟨pre, a, post, u, hl, hpre, hfail⟩)
  · intro h failure hfail
    obtain ⟨pre, a, post, u, hl, hpre, ha⟩ := Lib.foldlM_eq_error_iff.mp hfail
    exact h pre a post u hl hpre failure ha

end EndsCleanly

end Verium
