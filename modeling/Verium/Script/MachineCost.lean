import Verium.Script.MachineRun

/-!
The events of a run, counted with weights. An operation without signatures has no events of its
own, `OP_CHECKSIG` calls the checker at most once, and a multisig at most once for each of its
keys, which it has counted before. A turn costs what its operation costs, and a budget that every
turn keeps to covers the whole loop.
-/

namespace Verium.Machine

open Lib Lib.Traced

variable {crypto : Crypto} {flags : EvalFlags} {checker : SignatureChecker}
  {sigversion : SigVersion} {fExec : Bool} {pc : CScript} {weight : Event → Nat} {k : Nat}

/-- A call of the checker weighs at most `k`. -/
def CallsWeigh (weight : Event → Nat) (k : Nat) : Prop :=
  ∀ vchSig vchPubKey scriptCode, weight (.checkSig vchSig vchPubKey scriptCode) ≤ k

theorem checkSig_bind_cost {β : Type} {vchSig vchPubKey : Bytes} {scriptCode : CScript}
    {f : Bool → Run β} {n : Nat} (hk : CallsWeigh weight k) (hf : ∀ b, cost weight (f b) ≤ n) :
    cost weight (checkSig checker sigversion vchSig vchPubKey scriptCode >>= f) ≤ k + n := by
  refine cost_bind_le ?_ fun b _ => hf b
  rw [checkSig, cost_emit_bind, cost_pure, Nat.add_zero]
  exact hk vchSig vchPubKey scriptCode

theorem execCheckSig_cost (hk : CallsWeigh weight k) (verify : Bool) (pbegincodehash : CScript)
    (stack : List Bytes) :
    cost weight (execCheckSig crypto flags checker sigversion verify pbegincodehash stack) ≤ k := by
  unfold execCheckSig
  refine cost_liftM_bind_le fun _ _ => ?_
  refine cost_liftM_bind_le fun vchSig _ => ?_
  refine cost_liftM_bind_le fun vchPubKey _ => ?_
  refine cost_liftM_bind_le fun scriptCode _ => ?_
  refine cost_liftM_bind_le fun _ _ => ?_
  refine cost_liftM_bind_le fun _ _ => ?_
  refine checkSig_bind_cost (n := 0) hk fun fSuccess => ?_
  refine cost_liftM_bind_le fun _ _ => ?_
  refine cost_liftM_bind_le fun _ _ => ?_
  refine cost_liftM_bind_le fun _ _ => ?_
  exact Nat.le_of_eq (cost_liftM weight _)

/-- Each call of the checker uses up a key. -/
theorem matchSignatures_cost (hk : CallsWeigh weight k) (stack : List Bytes) (scriptCode : CScript)
    (turns : Nat) (fSuccess : Bool) (isig ikey nSigsCount nKeysCount : Int)
    (hleft : fSuccess = true → nSigsCount ≤ nKeysCount) :
    cost weight (matchSignatures crypto flags checker sigversion stack scriptCode turns fSuccess
      isig ikey nSigsCount nKeysCount) ≤ k * nKeysCount.toNat := by
  induction turns generalizing fSuccess isig ikey nSigsCount nKeysCount with
  | zero => exact Nat.zero_le _
  | succ turns ih =>
    unfold matchSignatures
    split
    next hgo =>
      have hkeys : nKeysCount.toNat = (nKeysCount - 1).toNat + 1 := by
        have := hleft hgo.1
        omega
      rw [hkeys, Nat.mul_succ, Nat.add_comm]
      refine cost_liftM_bind_le fun vchSig _ => ?_
      refine cost_liftM_bind_le fun vchPubKey _ => ?_
      refine cost_liftM_bind_le fun _ _ => ?_
      refine cost_liftM_bind_le fun _ _ => ?_
      refine checkSig_bind_cost hk fun fOk => ih _ _ _ _ _ fun h => ?_
      exact not_lt.mp (of_decide_eq_true h)
    next => exact Nat.zero_le _

theorem checkArguments_cost (hk : CallsWeigh weight k) (verify : Bool) (pbegincodehash : CScript)
    (stack : List Bytes) (i ikey isig nKeysCount nSigsCount : Int) (hle : nSigsCount ≤ nKeysCount) :
    cost weight (checkArguments crypto flags checker sigversion verify pbegincodehash stack i ikey
      isig nKeysCount nSigsCount) ≤ k * nKeysCount.toNat := by
  unfold checkArguments
  refine cost_liftM_bind_le fun scriptCode _ => ?_
  refine cost_bind_le (n := 0)
    (matchSignatures_cost hk stack scriptCode _ true isig ikey nSigsCount nKeysCount fun _ => hle)
    fun fSuccess _ => ?_
  refine cost_liftM_bind_le fun stack _ => ?_
  refine cost_liftM_bind_le fun _ _ => ?_
  refine cost_liftM_bind_le fun dummy _ => ?_
  refine cost_liftM_bind_le fun _ _ => ?_
  refine cost_liftM_bind_le fun stack _ => ?_
  exact Nat.le_of_eq (cost_liftM weight _)

/-- The number of keys a multisig finds on top of the stack. -/
def KeysOnTop (flags : EvalFlags) (stack : List Bytes) (n : Nat) : Prop :=
  ∃ top bn, stacktop stack (-1) = .ok top ∧ operand flags top = .ok bn ∧ scriptNumGetInt bn = n

/-- The cost of a multisig: nothing, or its keys with a call for each. -/
def MultisigCost (flags : EvalFlags) (weight : Event → Nat) (k : Nat) (nOpCount : Int)
    (stack : List Bytes) (c : Nat) : Prop :=
  c = 0 ∨ ∃ n : Nat, KeysOnTop flags stack n ∧ n ≤ maxPubkeysPerMultisig ∧
    nOpCount + n ≤ maxOpsPerScript ∧ c ≤ weight (.multisigKeys n) + k * n

theorem setErrorIf_eq_ok {c : Prop} [Decidable c] {e : ScriptError} {u : Unit} :
    setErrorIf c e = .ok u ↔ ¬ c :=
  rejectIf_eq_ok

theorem execCheckMultiSig_cost (hk : CallsWeigh weight k) (verify : Bool) (pbegincodehash : CScript)
    (nOpCount : Int) (stack : List Bytes) :
    MultisigCost flags weight k nOpCount stack (cost weight (execCheckMultiSig crypto flags checker
      sigversion verify pbegincodehash nOpCount stack)) := by
  unfold execCheckMultiSig
  have hzero : MultisigCost flags weight k nOpCount stack 0 := .inl rfl
  refine cost_liftM_bind_cases hzero fun _ _ => ?_
  refine cost_liftM_bind_cases hzero fun top htop => ?_
  refine cost_liftM_bind_cases hzero fun bn hbn => ?_
  refine cost_liftM_bind_cases hzero fun _ hkeys => ?_
  refine cost_liftM_bind_cases hzero fun _ hops => ?_
  rw [setErrorIf_eq_ok] at hkeys hops
  obtain ⟨n, hn⟩ : ∃ n : Nat, scriptNumGetInt bn = n := ⟨(scriptNumGetInt bn).toNat, by omega⟩
  rw [hn] at hkeys hops ⊢
  refine .inr ⟨n, ⟨top, bn, htop, mapError_eq_ok.mp hbn, hn⟩, by omega, by omega, ?_⟩
  rw [cost_emit_bind, Int.toNat_natCast]
  refine Nat.add_le_add_left ?_ _
  refine cost_liftM_bind_le fun _ _ => ?_
  refine cost_liftM_bind_le fun vch _ => ?_
  refine cost_liftM_bind_le fun bnSigs _ => ?_
  refine cost_liftM_bind_le fun _ hsigs => ?_
  refine cost_liftM_bind_le fun _ _ => ?_
  rw [setErrorIf_eq_ok] at hsigs
  refine cost_bind_le (n := 0) ?_ fun _ _ => Nat.le_of_eq (cost_pure weight _)
  exact checkArguments_cost hk verify pbegincodehash stack _ _ _ n _ (by omega)

theorem execOp_cost_of_isPlain {op : Op} (hplain : isPlain op = true) (v : EvalVars) :
    cost weight (execOp crypto flags checker sigversion fExec pc op v) = 0 := by
  cases op <;> first | rfl | cases hplain

theorem execOp_cost (hk : CallsWeigh weight k) (op : Op) (v : EvalVars) :
    cost weight (execOp crypto flags checker sigversion fExec pc op v) = 0 ∨
    ((∃ verify, op = .checkSig verify) ∧
      cost weight (execOp crypto flags checker sigversion fExec pc op v) ≤ k) ∨
    ((∃ verify, op = .checkMultiSig verify) ∧ MultisigCost flags weight k v.nOpCount v.stack
      (cost weight (execOp crypto flags checker sigversion fExec pc op v))) := by
  cases hplain : isPlain op with
  | true => exact .inl (execOp_cost_of_isPlain hplain v)
  | false =>
    cases op with
    | checkSig verify =>
      refine .inr (.inl ⟨⟨verify, rfl⟩, ?_⟩)
      refine cost_bind_le (n := 0) ?_ fun _ _ => Nat.le_of_eq (cost_pure weight _)
      exact execCheckSig_cost hk verify v.pbegincodehash v.stack
    | checkMultiSig verify =>
      refine .inr (.inr ⟨⟨verify, rfl⟩, ?_⟩)
      rw [execOp.eq_def, cost_bind_eq fun _ => cost_pure weight _]
      exact execCheckMultiSig_cost hk verify v.pbegincodehash v.nOpCount v.stack
    | _ => cases hplain

section Turn

variable {opcode : UInt8} {vchPushValue : Bytes} {s : EvalState}

theorem execOperation_cost (v : EvalVars) :
    cost weight (execOperation crypto flags checker sigversion fExec opcode vchPushValue pc v) ≤
        weight (.operation opcode) ∨
      (¬ (fExec ∧ opcode ≤ Opcode.pushData4) ∧
        (fExec ∨ (Opcode.opIf ≤ opcode ∧ opcode ≤ Opcode.opEndIf))) ∧
        cost weight (execOperation crypto flags checker sigversion fExec opcode vchPushValue pc v) =
          weight (.operation opcode) +
            cost weight (execOp crypto flags checker sigversion fExec pc
              (Op.ofOpcode opcode) v) := by
  unfold execOperation
  split
  next =>
    rw [cost_emit_bind]
    exact .inl (Nat.add_le_add_left (cost_liftM_bind_le fun _ _ => le_rfl) _)
  next hpush =>
    split
    next hexec => exact .inr ⟨⟨hpush, hexec⟩, cost_emit_bind⟩
    next => exact .inl (Nat.zero_le _)

/-- The operation is within the limits that a turn checks first. -/
def WithinLimits (opcode : UInt8) (vchPushValue : Bytes) (nOpCount : Nat) : Prop :=
  vchPushValue.length ≤ maxScriptElementSize ∧
    (Opcode.op16 < opcode → countedOps opcode nOpCount ≤ maxOpsPerScript)

theorem evalStep_eq_ok {t : EvalState}
    (h : evalStep crypto flags checker sigversion s (.op opcode vchPushValue pc) = .ok t) :
    WithinLimits opcode vchPushValue s.nOpCount ∧
      stepOperation crypto flags checker sigversion (s.vfExec.all id) opcode vchPushValue pc
        { s with nOpCount := countedOps opcode s.nOpCount } = .ok t := by
  rw [evalStep_eq] at h
  simp only [bind_eq_ok, rejectIf_eq_ok] at h
  obtain ⟨-, hsize, -, hlimit, -, -, -, -, u, hu, -, -, ht⟩ := h
  cases ht
  exact ⟨⟨not_lt.mp hsize, fun hop => not_lt.mp fun hover => hlimit ⟨hop, hover⟩⟩, hu⟩

/-- The cost of a turn: nothing, or at most `b` for an operation within the limits. -/
def TurnCost (opcode : UInt8) (vchPushValue : Bytes) (nOpCount b c : Nat) : Prop :=
  c = 0 ∨ WithinLimits opcode vchPushValue nOpCount ∧ c ≤ b

theorem evalTurn_cost {m : Nat} (hturn : ∀ t, WithinLimits opcode vchPushValue s.nOpCount →
      stepOperation crypto flags checker sigversion (s.vfExec.all id) opcode vchPushValue pc
        { s with nOpCount := countedOps opcode s.nOpCount } = .ok t →
      t.stack.length + t.altstack.length ≤ maxStackSize →
      weight (.turn (storage t.stack) (storage t.altstack)) ≤ m) :
    TurnCost opcode vchPushValue s.nOpCount
      (cost weight (execOperation crypto flags checker sigversion (s.vfExec.all id) opcode
        vchPushValue pc (ofState { s with nOpCount := countedOps opcode s.nOpCount })) + m)
      (cost weight
        (evalTurn crypto flags checker sigversion opcode vchPushValue pc (ofState s))) := by
  have hzero : ∀ b, TurnCost opcode vchPushValue s.nOpCount b 0 := fun b => .inl rfl
  simp only [evalTurn, countedOps_eq]
  refine cost_liftM_bind_cases (hzero _) fun _ hsize => ?_
  refine cost_liftM_bind_cases (hzero _) fun _ hlimit => ?_
  refine cost_liftM_bind_cases (hzero _) fun _ _ => ?_
  refine cost_liftM_bind_cases (hzero _) fun _ _ => ?_
  rw [setErrorIf_eq_ok] at hsize hlimit
  have hwithin : WithinLimits opcode vchPushValue s.nOpCount :=
    ⟨not_lt.mp hsize, fun hop => not_lt.mp fun hover => hlimit ⟨hop, by omega⟩⟩
  refine .inr ⟨hwithin, ?_⟩
  refine cost_bind_le le_rfl fun v hv => ?_
  refine cost_liftM_bind_le fun _ hstack => ?_
  have hresult : (execOperation crypto flags checker sigversion (s.vfExec.all id) opcode
      vchPushValue pc (ofState { s with nOpCount := countedOps opcode s.nOpCount })).result = _ :=
    execOperation_result opcode vchPushValue _
  rw [cost_emit_bind, cost_pure, Nat.add_zero]
  cases hop : stepOperation crypto flags checker sigversion (s.vfExec.all id) opcode vchPushValue pc
      { s with nOpCount := countedOps opcode s.nOpCount } with
  | error e =>
    rw [hop] at hresult
    cases hv.symm.trans hresult
  | ok t =>
    rw [hop] at hresult
    cases hv.symm.trans hresult
    rw [setErrorIf_eq_ok, ofState, length_storage, length_storage, not_lt] at hstack
    exact hturn t hwithin hop hstack

end Turn

/-- A budget that every turn keeps to covers the whole loop. -/
theorem evalLoop_cost {W : CScript → EvalState → Nat → Prop}
    (hstep : ∀ pc s b opcode vchPushValue rest, W pc s b →
      getScriptOp pc = some (opcode, vchPushValue, rest) →
      cost weight (evalTurn crypto flags checker sigversion opcode vchPushValue rest
        (ofState s)) ≤ b ∧
        ∀ t, evalStep crypto flags checker sigversion s (.op opcode vchPushValue rest) = .ok t →
          ∃ c, W rest t c ∧ cost weight (evalTurn crypto flags checker sigversion opcode
            vchPushValue rest (ofState s)) + c ≤ b)
    (turns : Nat) {s : EvalState} {b : Nat} (h : W pc s b) :
    cost weight (evalLoop crypto flags checker sigversion turns pc (ofState s)) ≤ b := by
  induction turns generalizing pc s b with
  | zero => cases pc <;> exact Nat.zero_le b
  | succ turns ih =>
    cases pc with
    | nil => exact Nat.zero_le b
    | cons op tail =>
      unfold evalLoop
      cases hop : getScriptOp (op :: tail) with
      | none => exact Nat.zero_le b
      | some read =>
        obtain ⟨opcode, vchPushValue, rest⟩ := read
        obtain ⟨hturn, hnext⟩ := hstep _ _ _ _ _ _ h hop
        have hresult : (evalTurn crypto flags checker sigversion opcode vchPushValue rest
            (ofState s)).result = _ := evalTurn_result opcode vchPushValue s
        cases hs : evalStep crypto flags checker sigversion s (.op opcode vchPushValue rest) with
        | error e =>
          rw [hs] at hresult
          exact (Nat.le_of_eq (cost_bind_error hresult)).trans hturn
        | ok t =>
          rw [hs] at hresult
          obtain ⟨c, hc, hle⟩ := hnext t hs
          refine (Nat.le_of_eq (cost_bind_ok hresult)).trans ?_
          exact (Nat.add_le_add_left (ih hc) _).trans hle

theorem evalScriptWith_cost {b : Nat} (stack : List Bytes) (script : CScript)
    (h : cost weight (evalLoop crypto flags checker sigversion script.length script
      (ofState (startState stack script))) ≤ b) :
    cost weight (evalScriptWith crypto flags checker sigversion (storage stack) script) ≤ b := by
  refine cost_liftM_bind_le fun _ _ => ?_
  refine cost_bind_le (n := 0) h fun v _ => ?_
  exact cost_liftM_bind_le fun _ _ => le_rfl

end Verium.Machine
