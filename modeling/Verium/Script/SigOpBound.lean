import Verium.Script.MachineCost

/-!
The calls of the signature checker against `GetSigOpCount`. The count takes the keys of a multisig
from the opcode before it, the interpreter from the stack. They agree because in an executed branch
a small integer that stands right before the multisig is what is on top of the stack.
-/

namespace Verium.Machine

open Lib Lib.Traced

/-- One for a call of the signature checker. -/
def Event.calls : Event → Nat
  | .checkSig _ _ _ => 1
  | .operation _ | .multisigKeys _ | .turn _ _ => 0

theorem callsWeigh_calls : CallsWeigh Event.calls 1 := fun _ _ _ => le_rfl

section Count

variable {fAccurate : Bool} {opcode lastOpcode : UInt8} {vch : Bytes} {pc : CScript} {n : Nat}

/-- What one operation adds to the count. -/
def sigOpsOf (fAccurate : Bool) (lastOpcode opcode : UInt8) : Nat :=
  (countSigOp fAccurate (0, lastOpcode) (.op opcode [] [])).1

/-- The count of the rest of a script, after `lastOpcode`. -/
def sigOpsFrom (fAccurate : Bool) (lastOpcode : UInt8) (ops : List ScriptRead) : Nat :=
  (ops.foldl (countSigOp fAccurate) (0, lastOpcode)).1

theorem countSigOp_op :
    countSigOp fAccurate (n, lastOpcode) (.op opcode vch pc) =
      (n + sigOpsOf fAccurate lastOpcode opcode, opcode) := by
  simp only [countSigOp, sigOpsOf]
  split
  · simp
  · split
    · split <;> simp
    · simp

theorem foldl_countSigOp (ops : List ScriptRead) :
    (ops.foldl (countSigOp fAccurate) (n, lastOpcode)).1 =
      n + sigOpsFrom fAccurate lastOpcode ops := by
  induction ops generalizing n lastOpcode with
  | nil => rfl
  | cons op ops ih =>
    rw [sigOpsFrom, List.foldl_cons, List.foldl_cons]
    cases op with
    | bad => exact ih
    | op opcode vch pc =>
      rw [countSigOp_op, countSigOp_op, ih, ih]
      omega

theorem sigOpsFrom_cons (ops : List ScriptRead) :
    sigOpsFrom fAccurate lastOpcode (.op opcode vch pc :: ops) =
      sigOpsOf fAccurate lastOpcode opcode + sigOpsFrom fAccurate opcode ops := by
  rw [sigOpsFrom, List.foldl_cons, countSigOp_op, foldl_countSigOp]
  omega

theorem sigOpsOf_le : sigOpsOf true lastOpcode opcode ≤ sigOpsOf false lastOpcode opcode := by
  simp only [sigOpsOf, countSigOp]
  split
  · exact le_rfl
  · split
    · split
      next hsmall => simpa using decodeOpN_le hsmall.2.2
      next => simp
    · exact le_rfl

theorem sigOpsFrom_le (ops : List ScriptRead) :
    sigOpsFrom true lastOpcode ops ≤ sigOpsFrom false lastOpcode ops := by
  induction ops generalizing lastOpcode with
  | nil => exact le_rfl
  | cons op ops ih =>
    cases op with
    | bad => exact ih
    | op opcode vch pc =>
      rw [sigOpsFrom_cons, sigOpsFrom_cons]
      exact Nat.add_le_add sigOpsOf_le ih

end Count

section Opcodes

variable {opcode : UInt8}

theorem ofOpcode_checkSig {verify : Bool} (h : Op.ofOpcode opcode = .checkSig verify) :
    opcode = Opcode.opCheckSig ∨ opcode = Opcode.opCheckSigVerify := by
  unfold Op.ofOpcode at h
  split at h
  · cases h
  · split at h <;> cases h
    next hop => exact .inl (UInt8.toNat_inj.mp hop)
    next hop => exact .inr (UInt8.toNat_inj.mp hop)

theorem ofOpcode_checkMultiSig {verify : Bool} (h : Op.ofOpcode opcode = .checkMultiSig verify) :
    opcode = Opcode.opCheckMultiSig ∨ opcode = Opcode.opCheckMultiSigVerify := by
  unfold Op.ofOpcode at h
  split at h
  · cases h
  · split at h <;> cases h
    next hop => exact .inl (UInt8.toNat_inj.mp hop)
    next hop => exact .inr (UInt8.toNat_inj.mp hop)

end Opcodes

section Turns

variable {crypto : Crypto} {flags : EvalFlags} {checker : SignatureChecker}
  {sigversion : SigVersion} {pc : CScript} {opcode lastOpcode : UInt8} {vchPushValue : Bytes}
  {s t : EvalState}

/-- In an executed branch, a small integer read last is on top of the stack. -/
def OnTop (lastOpcode : UInt8) (s : EvalState) : Prop :=
  Opcode.op1 ≤ lastOpcode → lastOpcode ≤ Opcode.op16 → s.vfExec.all id = true →
    s.stack.head? = some (scriptNumSerialize (lastOpcode.toNat - 0x50))

theorem smallInt_operand (flags : EvalFlags) {n : Nat} (hlow : 0 < n) (hhigh : n ≤ 16) :
    operand flags (scriptNumSerialize n) = .ok n := by
  unfold operand
  interval_cases n <;> cases flags.minimalData <;> rfl

theorem keysOnTop_smallInt (htop : OnTop lastOpcode s) (hlow : Opcode.op1 ≤ lastOpcode)
    (hhigh : lastOpcode ≤ Opcode.op16) (hexec : s.vfExec.all id = true) {n : Nat}
    (hn : KeysOnTop flags (storage s.stack) n) : n = decodeOpN lastOpcode := by
  have hop1 : 0x51 ≤ lastOpcode.toNat := hlow
  have hop16 : lastOpcode.toNat ≤ 0x60 := hhigh
  obtain ⟨k, hk⟩ : ∃ k : Nat, lastOpcode.toNat = k + 0x50 := ⟨lastOpcode.toNat - 0x50, by omega⟩
  have hdecode : decodeOpN lastOpcode = k := by
    have hne : lastOpcode ≠ Opcode.op0 := by
      rintro rfl
      simp [Opcode.op0] at hop1
    simp only [decodeOpN, if_neg hne, hk, Opcode.op1, UInt8.reduceToNat]
    omega
  obtain ⟨top, bn, hstack, hbn, hget⟩ := hn
  have hhead := htop hlow hhigh hexec
  cases hs : s.stack with
  | nil => simp [hs] at hhead
  | cons vch rest =>
    rw [hs, stacktop_top] at hstack
    obtain rfl := Except.ok.inj hstack
    rw [hs, List.head?_cons, Option.some.injEq, hk] at hhead
    have hvch : vch = scriptNumSerialize k := by
      rw [hhead]
      congr 1
      omega
    rw [hvch, smallInt_operand flags (by omega) (by omega)] at hbn
    cases hbn
    rw [scriptNumGetInt_natCast (by simp only [maxPubkeysPerMultisig]; omega)] at hget
    rw [hdecode]
    exact (Int.ofNat_inj.mp hget).symm

theorem evalTurn_calls (htop : OnTop lastOpcode s) :
    cost Event.calls (evalTurn crypto flags checker sigversion opcode vchPushValue pc (ofState s)) ≤
      sigOpsOf true lastOpcode opcode := by
  have hcost := @evalTurn_cost crypto flags checker sigversion pc Event.calls opcode
    vchPushValue s 0
    fun _ _ _ _ => le_rfl
  obtain hzero | ⟨-, hle⟩ := hcost
  · exact hzero ▸ Nat.zero_le _
  refine hle.trans ?_
  obtain hnone | ⟨⟨-, hexec⟩, hop⟩ := @execOperation_cost crypto flags checker sigversion
    (s.vfExec.all id) pc Event.calls opcode vchPushValue
    (ofState { s with nOpCount := countedOps opcode s.nOpCount })
  · exact hnone.trans (Nat.zero_le _)
  rw [hop, Event.calls, Nat.zero_add, Nat.add_zero]
  obtain hzero | ⟨⟨verify, hsig⟩, hle⟩ | ⟨⟨verify, hmultisig⟩, hle⟩ := @execOp_cost crypto flags
    checker sigversion (s.vfExec.all id) pc Event.calls 1 callsWeigh_calls (Op.ofOpcode opcode)
    (ofState { s with nOpCount := countedOps opcode s.nOpCount })
  · exact hzero ▸ Nat.zero_le _
  · have hone : sigOpsOf true lastOpcode opcode = 1 := by
      simp only [sigOpsOf, countSigOp, if_pos (ofOpcode_checkSig hsig)]
    exact hone ▸ hle
  · obtain hzero | ⟨n, hn, hmax, -, hle⟩ := hle
    · exact hzero ▸ Nat.zero_le _
    have hexec : s.vfExec.all id = true := by
      refine hexec.resolve_right fun hcond => ?_
      obtain rfl | rfl := ofOpcode_checkMultiSig hmultisig
      · exact absurd hcond.2 (by decide)
      · exact absurd hcond.2 (by decide)
    have hsig : ¬ (opcode = Opcode.opCheckSig ∨ opcode = Opcode.opCheckSigVerify) := by
      obtain rfl | rfl := ofOpcode_checkMultiSig hmultisig <;> decide
    simp only [Event.calls, Nat.zero_add, Nat.one_mul] at hle
    simp only [sigOpsOf, countSigOp, if_neg hsig, if_pos (ofOpcode_checkMultiSig hmultisig)]
    split
    next hsmall =>
      have hkeys := keysOnTop_smallInt htop hsmall.2.1 hsmall.2.2 hexec hn
      omega
    next => omega

theorem evalStep_onTop
    (h : evalStep crypto flags checker sigversion s (.op opcode vchPushValue pc) = .ok t) :
    OnTop opcode t := by
  intro hlow hhigh hexec
  obtain ⟨-, hop⟩ := evalStep_eq_ok h
  have hop1 : 0x51 ≤ opcode.toNat := hlow
  have hop16 : opcode.toNat ≤ 0x60 := hhigh
  have hpush : ¬ opcode ≤ Opcode.pushData4 := fun hle => by
    have : opcode.toNat ≤ 0x4e := hle
    omega
  have hcond : ¬ (Opcode.opIf ≤ opcode ∧ opcode ≤ Opcode.opEndIf) := fun hcond => by
    have : 0x63 ≤ opcode.toNat := hcond.1
    omega
  have hsmall : Op.ofOpcode opcode = .smallInt (opcode.toNat - 0x50) := if_pos (.inr ⟨hlow, hhigh⟩)
  rw [stepOperation, if_neg (fun h => hpush h.2), hsmall] at hop
  split at hop
  next =>
    cases hop
    rfl
  next hskip =>
    cases hop
    exact absurd (.inl hexec) hskip

theorem evalLoop_calls (turns : Nat) (htop : OnTop lastOpcode s) :
    cost Event.calls (evalLoop crypto flags checker sigversion turns pc (ofState s)) ≤
      sigOpsFrom true lastOpcode (scriptOps pc) := by
  refine evalLoop_cost (W := fun pc s b => ∃ lastOpcode, OnTop lastOpcode s ∧
    b = sigOpsFrom true lastOpcode (scriptOps pc)) ?_ turns ⟨lastOpcode, htop, rfl⟩
  rintro pc s _ opcode vchPushValue rest ⟨lastOpcode, htop, rfl⟩ hop
  have hcalls := @evalTurn_calls crypto flags checker sigversion rest opcode lastOpcode vchPushValue
    s htop
  rw [scriptOps_of_getScriptOp hop, sigOpsFrom_cons]
  refine ⟨by omega, fun t ht => ⟨_, ⟨opcode, evalStep_onTop ht, rfl⟩, by omega⟩⟩

/-- `EvalScript` calls the checker at most as often as the script counts signature operations. -/
theorem evalScript_calls (crypto : Crypto) (stack : List Bytes) (script : CScript) (flags : UInt32)
    (checker : SignatureChecker) (sigversion : SigVersion) :
    cost Event.calls (evalScript crypto stack script flags checker sigversion) ≤
      getSigOpCount true script := by
  obtain ⟨l, rfl⟩ : ∃ l, stack = storage l := ⟨stack.reverse, (List.reverse_reverse stack).symm⟩
  refine evalScriptWith_cost l script (evalLoop_calls script.length fun _ hhigh => ?_)
  exact absurd hhigh (by decide)

end Turns

section PushOnly

variable {crypto : Crypto} {flags : EvalFlags} {checker : SignatureChecker}
  {sigversion : SigVersion} {pc : CScript} {opcode : UInt8} {vchPushValue : Bytes} {s t : EvalState}

/-- The script a small integer would be counts no signature operation. -/
theorem getSigOpCount_smallInt (h : opcode = 0x4f ∨ 0x51 ≤ opcode ∧ opcode ≤ 0x60) :
    getSigOpCount true (scriptNumSerialize (opcode.toNat - 0x50)) = 0 := by
  obtain rfl | ⟨hlow, hhigh⟩ := h
  · rfl
  · have hop1 : 0x51 ≤ opcode.toNat := hlow
    have hop16 : opcode.toNat ≤ 0x60 := hhigh
    generalize opcode.toNat = n at hop1 hop16
    interval_cases n <;> rfl

theorem ofOpcode_aboveData (hop : opcode ≤ Opcode.op16) (hpush : ¬ opcode ≤ Opcode.pushData4) :
    (opcode = 0x4f ∨ 0x51 ≤ opcode ∧ opcode ≤ 0x60) ∨ Op.ofOpcode opcode = .bad := by
  have hop16 : opcode.toNat ≤ 0x60 := hop
  have hpush4 : ¬ opcode.toNat ≤ 0x4e := hpush
  by_cases hreserved : opcode = 0x50
  · subst hreserved
    exact .inr rfl
  · refine .inl ?_
    by_cases hneg : opcode = 0x4f
    · exact .inl hneg
    · refine .inr ⟨?_, hop⟩
      simp only [← UInt8.toNat_inj, UInt8.reduceToNat] at hreserved hneg
      simp only [UInt8.le_iff_toNat_le, UInt8.reduceToNat]
      omega

/-- A push leaves its operand, or an element that counts nothing. -/
theorem evalStep_pushOnly (hop : opcode ≤ Opcode.op16) (hexec : s.vfExec = [])
    (h : evalStep crypto flags checker sigversion s (.op opcode vchPushValue pc) = .ok t) :
    t.vfExec = [] ∧ ∃ top, t.stack = top :: s.stack ∧
      (top = vchPushValue ∨ getSigOpCount true top = 0) := by
  obtain ⟨n, hstep⟩ := evalStep_ok (by rw [hexec]; rfl) h
  by_cases hpush : opcode ≤ Opcode.pushData4
  · rw [if_pos hpush] at hstep
    subst hstep
    exact ⟨hexec, vchPushValue, rfl, .inl rfl⟩
  · rw [if_neg hpush] at hstep
    obtain hsmall | hbad := ofOpcode_aboveData hop hpush
    · rw [Op.ofOpcode, if_pos hsmall] at hstep
      cases hstep
      exact ⟨hexec, _, rfl, .inr (getSigOpCount_smallInt hsmall)⟩
    · rw [hbad] at hstep
      cases hstep

/-- The last element a script of pushes leaves counts at most what the operand of its last operation
counts. -/
theorem getSigOpCount_redeemScript {flags : UInt32} {scriptSig redeemScript : CScript}
    {rest : List Bytes} (hpush : isPushOnly scriptSig = true)
    (h : Verium.evalScript crypto [] scriptSig flags checker sigversion =
      .ok (redeemScript :: rest)) :
    getSigOpCount true redeemScript ≤ getSigOpCount true (lastPushed (scriptOps scriptSig)) := by
  obtain ⟨_, -, h⟩ := bind_eq_ok.mp h
  obtain ⟨t, hrun, h⟩ := bind_eq_ok.mp h
  obtain ⟨_, -, h⟩ := bind_eq_ok.mp h
  have hstack : t.stack = redeemScript :: rest := Except.ok.inj h
  have hall := List.all_eq_true.mp hpush
  obtain hnil | ⟨pre, op, hops⟩ := List.eq_nil_or_concat' (scriptOps scriptSig)
  · rw [hnil] at hrun
    cases foldlM_nil_eq_ok.mp hrun
    cases hstack
  · rw [hops] at hrun hall ⊢
    obtain ⟨s, hpre, hlast⟩ := foldlM_append_eq_ok.mp hrun
    obtain ⟨t', hop, hnil⟩ := foldlM_cons_eq_ok.mp hlast
    cases foldlM_nil_eq_ok.mp hnil
    have hexec : s.vfExec = [] := by
      refine foldlM_invariant (I := fun s => s.vfExec = []) (fun op hop s t hs ht => ?_) rfl hpre
      have hpushed := hall op (List.mem_append_left _ hop)
      cases op with
      | bad => cases hpushed
      | op opcode vch pc => exact (evalStep_pushOnly (of_decide_eq_true hpushed) hs ht).1
    have hpushed := hall op (List.mem_append_right _ (List.mem_singleton_self op))
    cases op with
    | bad => cases hpushed
    | op opcode vch pc =>
      obtain ⟨-, top, htop, hcount⟩ := evalStep_pushOnly (of_decide_eq_true hpushed) hexec hop
      cases hstack.symm.trans htop
      obtain rfl | hzero := hcount
      · simp [lastPushed]
      · exact hzero ▸ Nat.zero_le _

end PushOnly

section Verify

variable {crypto : Crypto} {flags : UInt32} {checker : SignatureChecker}

theorem witnessStage_calls (script : CScript) (witness : CScriptWitness) (wellFormed : Bool)
    (malleated : ScriptError) :
    cost Event.calls (witnessStage crypto flags checker script witness wellFormed
      malleated) = 0 := by
  unfold witnessStage
  split <;> rfl

theorem scriptHashStage_calls {scriptSig : CScript} (witness : CScriptWitness)
    {stackCopy : List Bytes}
    (h : Verium.evalScript crypto [] scriptSig flags checker .base = .ok stackCopy) :
    cost Event.calls (scriptHashStage crypto flags checker scriptSig witness (storage stackCopy)) ≤
      if isPushOnly scriptSig then getSigOpCount true (lastPushed (scriptOps scriptSig))
      else 0 := by
  unfold scriptHashStage
  refine cost_liftM_bind_le fun _ hpush => ?_
  rw [setErrorIf_eq_ok, not_not] at hpush
  rw [if_pos hpush]
  refine cost_liftM_bind_le fun _ hne => ?_
  refine cost_liftM_bind_le fun pubKeySerialized hback => ?_
  refine cost_liftM_bind_le fun stack _ => ?_
  cases stackCopy with
  | nil => cases hback
  | cons redeemScript rest =>
    have hredeem : back (storage (redeemScript :: rest)) = .ok redeemScript := by simp [back]
    obtain rfl := Except.ok.inj (hredeem.symm.trans hback)
    have hcalls := evalScript_calls crypto stack redeemScript flags checker .base
    have hcalls := hcalls.trans (getSigOpCount_redeemScript hpush h)
    refine cost_bind_le (n := 0) hcalls fun stack _ => ?_
    refine cost_liftM_bind_le fun _ _ => ?_
    rw [cost_bind_eq fun _ => cost_pure _ _, witnessStage_calls]

theorem extraStage_calls {scriptSig : CScript} (scriptPubKey : CScript) (witness : CScriptWitness)
    {stackCopy : List Bytes} (stack : List Bytes)
    (h : Verium.evalScript crypto [] scriptSig flags checker .base = .ok stackCopy) :
    cost Event.calls (extraStage crypto flags checker scriptSig scriptPubKey witness
      (storage stackCopy) stack) ≤ getSigOpCountSpending scriptPubKey scriptSig := by
  unfold extraStage
  split
  next hp2sh =>
    rw [getSigOpCountSpending, if_pos hp2sh.2]
    exact scriptHashStage_calls witness h
  next => exact Nat.zero_le _

/-- The calls of `VerifyScript` are bounded by what the scriptSig, the scriptPubKey and the redeem
script count. -/
theorem verifyScript_calls (scriptSig scriptPubKey : CScript) (witness : CScriptWitness) :
    cost Event.calls (verifyScript crypto flags checker scriptSig scriptPubKey witness) ≤
      getSigOpCount true scriptSig + getSigOpCount true scriptPubKey +
        getSigOpCountSpending scriptPubKey scriptSig := by
  rw [Nat.add_assoc]
  unfold verifyScript
  refine cost_liftM_bind_le fun _ _ => ?_
  have hsigCalls := evalScript_calls crypto [] scriptSig flags checker .base
  refine cost_bind_le hsigCalls fun stackCopy hsig => ?_
  have hresult : (evalScript crypto (storage []) scriptSig flags checker .base).result = _ :=
    evalScript_result [] scriptSig flags
  cases heval : Verium.evalScript crypto [] scriptSig flags checker .base with
  | error e =>
    rw [heval] at hresult
    cases hsig.symm.trans hresult
  | ok stackCopy =>
    rw [heval] at hresult
    cases hsig.symm.trans hresult
    have hpubKeyCalls := evalScript_calls crypto (storage stackCopy) scriptPubKey
      flags checker .base
    refine cost_bind_le hpubKeyCalls fun stack _ => ?_
    refine cost_liftM_bind_le fun _ _ => ?_
    rw [← Nat.zero_add (getSigOpCountSpending scriptPubKey scriptSig)]
    refine cost_bind_le (witnessStage_calls _ _ _ _).le fun bareWitness _ => ?_
    refine cost_bind_le (n := 0) (extraStage_calls scriptPubKey witness _ heval) fun p _ => ?_
    refine cost_liftM_bind_le fun _ _ => ?_
    exact (cost_liftM _ _).le

end Verify

/-- The calls of the signature checker are bounded by the counts of signature operations: for a
script, the accurate count and so the other one; for an input, the counts of the scriptSig, the
scriptPubKey and the redeem script. -/
theorem checkSigCalls_le (crypto : Crypto) (flags : UInt32) (checker : SignatureChecker) :
    (∀ stack script sigversion,
      cost Event.calls (evalScript crypto stack script flags checker sigversion) ≤
        getSigOpCount true script) ∧
    (∀ script, getSigOpCount true script ≤ getSigOpCount false script) ∧
    ∀ scriptSig scriptPubKey witness,
      cost Event.calls (verifyScript crypto flags checker scriptSig scriptPubKey witness) ≤
        getSigOpCount true scriptSig + getSigOpCount true scriptPubKey +
          getSigOpCountSpending scriptPubKey scriptSig :=
  ⟨fun stack script sigversion => evalScript_calls crypto stack script flags checker sigversion,
    fun script => sigOpsFrom_le (scriptOps script), verifyScript_calls⟩

end Verium.Machine
