import Verium.Lib.Outcome
import Mathlib.Algebra.Order.BigOperators.Group.List
import Mathlib.Algebra.Order.Ring.Nat

/-!
Computations that can fail and that leave a trace of events, kept also when they fail. The result
of a computation is computed without looking at the trace (`result` is a monad morphism to
`Except`), so what a program returns and what it does on the way are analysed apart.
-/

namespace Verium.Lib

structure Traced (ω ε α : Type) where
  result : Except ε α
  trace : List ω

namespace Traced

variable {ω ε α β σ : Type}

def bindTrace (x : Traced ω ε α) (f : α → Traced ω ε β) : Traced ω ε β :=
  match x.result with
  | .error e => ⟨.error e, x.trace⟩
  | .ok a => ⟨(f a).result, x.trace ++ (f a).trace⟩

instance monad : Monad (Traced ω ε) where
  pure a := ⟨.ok a, []⟩
  bind := bindTrace

/-- Stop with an error. -/
def fail (e : ε) : Traced ω ε α := ⟨.error e, []⟩

/-- Record an event. -/
def emit (w : ω) : Traced ω ε Unit := ⟨.ok (), [w]⟩

/-- A computation without events. -/
def lift (x : Except ε α) : Traced ω ε α := ⟨x, []⟩

instance monadLift : MonadLift (Except ε) (Traced ω ε) where
  monadLift := lift

@[simp]
theorem result_pure (a : α) : (pure a : Traced ω ε α).result = .ok a :=
  rfl

@[simp]
theorem result_bind (x : Traced ω ε α) (f : α → Traced ω ε β) :
    (x >>= f).result = x.result >>= fun a => (f a).result := by
  change (bindTrace x f).result = _
  unfold bindTrace
  cases x.result <;> rfl

@[simp]
theorem result_fail (e : ε) : (fail e : Traced ω ε α).result = .error e :=
  rfl

@[simp]
theorem result_emit (w : ω) : (emit w : Traced ω ε Unit).result = .ok () :=
  rfl

@[simp]
theorem result_liftM (x : Except ε α) : (liftM x : Traced ω ε α).result = x :=
  rfl

@[simp]
theorem result_ite {c : Prop} [Decidable c] (x y : Traced ω ε α) :
    (if c then x else y).result = if c then x.result else y.result :=
  apply_ite result c x y

section Trace

variable {x : Traced ω ε α} {f : α → Traced ω ε β}

@[simp]
theorem trace_pure (a : α) : (pure a : Traced ω ε α).trace = [] :=
  rfl

@[simp]
theorem trace_fail (e : ε) : (fail e : Traced ω ε α).trace = [] :=
  rfl

@[simp]
theorem trace_emit (w : ω) : (emit w : Traced ω ε Unit).trace = [w] :=
  rfl

@[simp]
theorem trace_liftM (x : Except ε α) : (liftM x : Traced ω ε α).trace = [] :=
  rfl

theorem trace_bind_ok {a : α} (h : x.result = .ok a) :
    (x >>= f).trace = x.trace ++ (f a).trace := by
  change (bindTrace x f).trace = _
  rw [bindTrace, h]

theorem trace_bind_error {e : ε} (h : x.result = .error e) : (x >>= f).trace = x.trace := by
  change (bindTrace x f).trace = _
  rw [bindTrace, h]

end Trace

section Cost

variable (weight : ω → Nat) {x : Traced ω ε α} {f : α → Traced ω ε β}

/-- The total weight of the events. -/
def cost (x : Traced ω ε α) : Nat :=
  (x.trace.map weight).sum

@[simp]
theorem cost_pure (a : α) : cost weight (pure a : Traced ω ε α) = 0 :=
  rfl

@[simp]
theorem cost_fail (e : ε) : cost weight (fail e : Traced ω ε α) = 0 :=
  rfl

@[simp]
theorem cost_emit (w : ω) : cost weight (emit w : Traced ω ε Unit) = weight w := by
  simp [cost]

@[simp]
theorem cost_liftM (x : Except ε α) : cost weight (liftM x : Traced ω ε α) = 0 :=
  rfl

variable {weight}

theorem cost_bind_ok {a : α} (h : x.result = .ok a) :
    cost weight (x >>= f) = cost weight x + cost weight (f a) := by
  simp [cost, trace_bind_ok h]

theorem cost_bind_error {e : ε} (h : x.result = .error e) :
    cost weight (x >>= f) = cost weight x := by
  simp [cost, trace_bind_error h]

theorem cost_bind_eq (hf : ∀ a, cost weight (f a) = 0) : cost weight (x >>= f) = cost weight x := by
  cases h : x.result with
  | error e => exact cost_bind_error h
  | ok a => rw [cost_bind_ok h, hf a, Nat.add_zero]

/-- The cost of a composed computation, when the second part is bounded on every result. -/
theorem cost_bind_le {m n : Nat} (hx : cost weight x ≤ m)
    (hf : ∀ a, x.result = .ok a → cost weight (f a) ≤ n) : cost weight (x >>= f) ≤ m + n := by
  cases h : x.result with
  | error e =>
    rw [cost_bind_error h]
    exact Nat.le_trans hx (Nat.le_add_right m n)
  | ok a =>
    rw [cost_bind_ok h]
    exact Nat.add_le_add hx (hf a h)

theorem cost_liftM_bind_le {y : Except ε α} {n : Nat}
    (hf : ∀ a, y = .ok a → cost weight (f a) ≤ n) : cost weight (liftM y >>= f) ≤ n := by
  simpa using cost_bind_le (Nat.le_of_eq (cost_liftM weight y)) hf

/-- What holds at no cost, and of the second part, holds of both parts. -/
theorem cost_liftM_bind_cases {P : Nat → Prop} {y : Except ε α} (hzero : P 0)
    (hf : ∀ a, y = .ok a → P (cost weight (f a))) : P (cost weight (liftM y >>= f)) := by
  cases y with
  | error e => exact hzero
  | ok a =>
    rw [cost_bind_ok (result_liftM _), cost_liftM, Nat.zero_add]
    exact hf a rfl

theorem cost_emit_bind {w : ω} {g : Unit → Traced ω ε β} :
    cost weight (emit w >>= g) = weight w + cost weight (g ()) := by
  rw [cost_bind_ok (result_emit w), cost_emit]

theorem weight_eq_zero {w : ω} (h : cost weight x = 0) (hw : w ∈ x.trace) : weight w = 0 := by
  have hall : ∀ n ∈ x.trace.map weight, n = 0 := List.sum_eq_zero_iff.mp h
  exact hall (weight w) (List.mem_map_of_mem hw)

end Cost

end Traced

end Verium.Lib
