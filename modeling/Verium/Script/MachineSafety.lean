import Verium.Script.MachineCost

/-!
`EvalScript` stays within its limits and never fails in an unexpected way. Every operation keeps the
elements short and counts its work, so that the count of operations bounds what a run has executed.
-/

namespace Verium.Machine

open Lib Lib.Traced

/-- Every element fits in the limit on elements. -/
def Short (l : List Bytes) : Prop :=
  ∀ vch ∈ l, vch.length ≤ maxScriptElementSize

section Short

variable {l l' : List Bytes} {vch : Bytes}

theorem short_nil : Short [] := nofun

@[simp]
theorem short_cons : Short (vch :: l) ↔ vch.length ≤ maxScriptElementSize ∧ Short l :=
  List.forall_mem_cons

theorem Short.of_subset (h : Short l) (hsub : l' ⊆ l) : Short l' :=
  fun vch hvch => h vch (hsub hvch)

theorem Short.of_drop (h : Short l) {n : Nat} (hdrop : l.drop n = vch :: l') : Short l' :=
  (short_cons.mp (hdrop ▸ h.of_subset (List.drop_subset n l))).2

theorem Short.getD (h : Short l) (n : Nat) : (l.getD n []).length ≤ maxScriptElementSize := by
  rw [List.getD_eq_getElem?_getD]
  cases hget : l[n]? with
  | none => simp
  | some vch => exact h vch (List.mem_of_getElem? hget)

theorem length_scriptNumSerialize (n : Int) :
    (scriptNumSerialize n).length ≤ maxScriptElementSize := by
  have hlen := length_magnitudeBytes 8 n.natAbs
  have hle : (scriptNumSerialize n).length ≤ 9 := by
    unfold scriptNumSerialize
    dsimp only
    split
    · simp
    · split
      · simp
        omega
      · split
        · simp
          omega
        · omega
  exact hle.trans (by decide)

theorem length_vchOfBool (b : Bool) : (vchOfBool b).length ≤ maxScriptElementSize := by
  cases b <;> decide

theorem length_hashOp (crypto : Crypto) (op : HashOp) (vch : Bytes) :
    (op.eval crypto vch).length ≤ maxScriptElementSize := by
  cases op <;> simp [HashOp.eval, serUInt256, maxScriptElementSize]

theorem Short.stackOp {op : Op} (h : Short l) (hop : Verium.stackOp op l = some l') : Short l' := by
  have hnum := length_scriptNumSerialize
  unfold Verium.stackOp at hop
  split at hop <;> cases hop <;> simp_all
  split <;> simp_all

end Short

section Kept

variable {crypto : Crypto} {flags : EvalFlags} {checker : SignatureChecker}
  {sigversion : SigVersion} {fExec : Bool} {pc : CScript} {s t : EvalState}

/-- What an operation other than a multisig keeps: the count of operations, and short elements. -/
def Kept (s t : EvalState) : Prop :=
  t.nOpCount = s.nOpCount ∧ Short t.stack ∧ Short t.altstack

/-- Any error. -/
abbrev anyError (_ : ScriptError) : Prop := True

theorem ends_any {α : Type} (x : Except ScriptError α) : Ends anyError x fun _ => True := by
  cases x <;> trivial

theorem Ends.andThen {α β : Type} {x : Except ScriptError α} {f : α → Except ScriptError β}
    {Q : β → Prop}
    (h : ∀ a, Ends anyError (f a) Q) : Ends anyError (x >>= f) Q :=
  (ends_any x).bind fun a _ => h a

theorem pushOrVerify_short {l : List Bytes} (h : Short l) (verify : Bool)
    (e : ScriptError) (b : Bool) :
    Ends anyError (pushOrVerify verify e b l) Short := by
  cases verify with
  | false => exact short_cons.mpr ⟨length_vchOfBool b, h⟩
  | true => exact Ends.andThen fun _ => h

theorem stackOp_kept {op : Op} (hop : op ∈ stackOps) (hstack : Short s.stack)
    (halt : Short s.altstack) :
    Ends anyError (Verium.execOp crypto flags checker sigversion fExec pc op s) (Kept s) := by
  rw [execOp_stackOp hop]
  cases hstackOp : Verium.stackOp op s.stack with
  | none => trivial
  | some stack => exact ⟨rfl, hstack.stackOp hstackOp, halt⟩

theorem execOp_kept (op : Op) (hop : ∀ verify, op ≠ .checkMultiSig verify) (hstack : Short s.stack)
    (halt : Short s.altstack) :
    Ends anyError (Verium.execOp crypto flags checker sigversion fExec pc op s) (Kept s) := by
  have hnum := length_scriptNumSerialize
  obtain ⟨l, altstack, vfExec, code, n⟩ := s
  dsimp only at hstack halt
  cases op with
  | smallInt k => exact ⟨rfl, short_cons.mpr ⟨hnum k, hstack⟩, halt⟩
  | nop | codeSeparator => exact ⟨rfl, hstack, halt⟩
  | opReturn | bad => trivial
  | checkLockTimeVerify =>
    rw [Verium.execOp.eq_def]
    dsimp only
    split
    · exact ⟨rfl, hstack, halt⟩
    · cases l with
      | nil => trivial
      | cons vch l => exact Ends.andThen fun _ => Ends.andThen fun _ => ⟨rfl, hstack, halt⟩
  | checkSequenceVerify =>
    rw [Verium.execOp.eq_def]
    dsimp only
    split
    · exact ⟨rfl, hstack, halt⟩
    · cases l with
      | nil => trivial
      | cons vch l =>
        refine Ends.andThen fun nSequence => ?_
        split
        · exact ⟨rfl, hstack, halt⟩
        · exact Ends.andThen fun _ => ⟨rfl, hstack, halt⟩
  | upgradableNop => exact Ends.andThen fun _ => ⟨rfl, hstack, halt⟩
  | opIf negated =>
    cases fExec with
    | false => exact ⟨rfl, hstack, halt⟩
    | true =>
      cases l with
      | nil => trivial
      | cons vch l => exact Ends.andThen fun _ => ⟨rfl, (short_cons.mp hstack).2, halt⟩
  | opElse | endIf =>
    cases vfExec with
    | nil => trivial
    | cons fValue outer => exact ⟨rfl, hstack, halt⟩
  | verify =>
    cases l with
    | nil => trivial
    | cons vch l => exact Ends.andThen fun _ => ⟨rfl, (short_cons.mp hstack).2, halt⟩
  | toAltStack =>
    cases l with
    | nil => trivial
    | cons vch l =>
      obtain ⟨hvch, hl⟩ := short_cons.mp hstack
      exact ⟨rfl, hl, short_cons.mpr ⟨hvch, halt⟩⟩
  | fromAltStack =>
    cases altstack with
    | nil => trivial
    | cons vch altstack =>
      obtain ⟨hvch, hl⟩ := short_cons.mp halt
      exact ⟨rfl, short_cons.mpr ⟨hvch, hstack⟩, hl⟩
  | pick =>
    rcases l with _ | ⟨vch, _ | ⟨x, l⟩⟩
    · trivial
    · trivial
    · have hrest := (short_cons.mp hstack).2
      exact Ends.andThen fun bn => Ends.andThen fun _ =>
        ⟨rfl, short_cons.mpr ⟨hrest.getD _, hrest⟩, halt⟩
  | roll =>
    rcases l with _ | ⟨vch, _ | ⟨x, l⟩⟩
    · trivial
    · trivial
    · have hrest := (short_cons.mp hstack).2
      exact Ends.andThen fun bn => Ends.andThen fun _ =>
        ⟨rfl, short_cons.mpr ⟨hrest.getD _, hrest.of_subset (List.eraseIdx_subset)⟩, halt⟩
  | equal verify =>
    rcases l with _ | ⟨vch2, _ | ⟨vch1, l⟩⟩
    · trivial
    · trivial
    · refine (pushOrVerify_short ?_ verify _ _).bind fun stack hstack => ⟨rfl, hstack, halt⟩
      simp_all
  | unary op =>
    cases l with
    | nil => trivial
    | cons vch l =>
      exact Ends.andThen fun bn => ⟨rfl, short_cons.mpr ⟨hnum _, (short_cons.mp hstack).2⟩, halt⟩
  | binary op =>
    rcases l with _ | ⟨vch2, _ | ⟨vch1, l⟩⟩
    · trivial
    · trivial
    · have hrest := (short_cons.mp (short_cons.mp hstack).2).2
      refine Ends.andThen fun bn1 => Ends.andThen fun bn2 => ?_
      split
      · exact Ends.andThen fun _ => ⟨rfl, hrest, halt⟩
      · exact ⟨rfl, short_cons.mpr ⟨hnum _, hrest⟩, halt⟩
  | within =>
    rcases l with _ | ⟨vch3, _ | ⟨vch2, _ | ⟨vch1, l⟩⟩⟩
    · trivial
    · trivial
    · trivial
    · have hrest := (short_cons.mp (short_cons.mp (short_cons.mp hstack).2).2).2
      exact Ends.andThen fun bn1 => Ends.andThen fun bn2 => Ends.andThen fun bn3 =>
        ⟨rfl, short_cons.mpr ⟨length_vchOfBool _, hrest⟩, halt⟩
  | hash op =>
    cases l with
    | nil => trivial
    | cons vch l =>
      exact ⟨rfl, short_cons.mpr ⟨length_hashOp crypto op vch, (short_cons.mp hstack).2⟩, halt⟩
  | checkSig verify =>
    rcases l with _ | ⟨vchPubKey, _ | ⟨vchSig, l⟩⟩
    · trivial
    · trivial
    · have hrest := (short_cons.mp (short_cons.mp hstack).2).2
      have hcheck : Ends anyError (Verium.execCheckSig crypto flags checker sigversion verify code
          (vchPubKey :: vchSig :: l)) Short :=
        Ends.andThen fun scriptCode => Ends.andThen fun fSuccess => Ends.andThen fun _ =>
          pushOrVerify_short hrest verify _ fSuccess
      exact hcheck.bind fun stack hstack => ⟨rfl, hstack, halt⟩
  | checkMultiSig verify => exact absurd rfl (hop verify)
  | drop2 | dup2 | dup3 | over2 | rot2 | swap2 | ifDup | depth | drop | dup | nip | «over» | rot
  | swap | tuck | size => exact stackOp_kept (by decide) hstack halt

theorem execCheckMultiSig_kept (verify : Bool) (pbegincodehash : CScript) (nOpCount : Nat)
    {l : List Bytes} (hl : Short l) :
    Ends anyError (Verium.execCheckMultiSig crypto flags checker sigversion verify pbegincodehash
      nOpCount l) fun p => Short p.2 ∧ p.1 ≤ maxOpsPerScript ∧
        ∃ n : Nat, KeysOnTop flags (storage l) n ∧ p.1 = nOpCount + n := by
  cases l with
  | nil => trivial
  | cons keysCount rest =>
    have hrest := (short_cons.mp hl).2
    have hcount : Ends anyError (scriptNumGetInt <$> operand flags keysCount) fun nKeysCount =>
        ∃ bn, operand flags keysCount = .ok bn ∧ scriptNumGetInt bn = nKeysCount := by
      cases hbn : operand flags keysCount with
      | error e => trivial
      | ok bn => exact ⟨bn, rfl, rfl⟩
    unfold Verium.execCheckMultiSig
    refine hcount.bind fun nKeysCount ⟨bn, hbn, hnum⟩ => ?_
    refine Ends.bind (Ends.rejectIf fun _ => trivial) fun _ hkeys => ?_
    obtain ⟨n, rfl⟩ : ∃ n : Nat, nKeysCount = n := ⟨nKeysCount.toNat, by omega⟩
    refine Ends.bind (Ends.rejectIf fun _ => trivial) fun _ hops => ?_
    have htop : KeysOnTop flags (storage (keysCount :: rest)) n :=
      ⟨keysCount, bn, stacktop_top keysCount rest, hbn, hnum⟩
    cases hdrop : rest.drop n with
    | nil =>
      rw [Int.toNat_natCast, hdrop]
      trivial
    | cons sigsCount rest2 =>
      have hrest2 := hrest.of_drop hdrop
      rw [Int.toNat_natCast, hdrop]
      refine Ends.andThen fun nSigsCount => Ends.andThen fun _ => Ends.andThen fun _ =>
        Ends.andThen fun _ => Ends.andThen fun fSuccess => Ends.andThen fun _ => ?_
      cases hdrop2 : rest2.drop nSigsCount.toNat with
      | nil => trivial
      | cons dummy rest3 =>
        have hrest3 := hrest2.of_drop hdrop2
        refine Ends.andThen fun _ => ?_
        refine (pushOrVerify_short hrest3 verify _ fSuccess).bind fun stack hstack => ?_
        exact ⟨hstack, not_lt.mp hops, n, htop, rfl⟩

end Kept

section Work

variable {crypto : Crypto} {flags : EvalFlags} {checker : SignatureChecker}
  {sigversion : SigVersion} {fExec : Bool} {pc : CScript} {opcode : UInt8} {vchPushValue : Bytes}
  {s t : EvalState}

/-- The operations that count towards the limit: every opcode above `OP_16`, and every key of a
multisig. -/
def Event.work : Event → Nat
  | .operation opcode => if Opcode.op16 < opcode then 1 else 0
  | .multisigKeys nKeysCount => nKeysCount
  | .checkSig _ _ _ | .turn _ _ => 0

/-- A state within the limits. -/
structure Safe (s : EvalState) : Prop where
  opCount : s.nOpCount ≤ maxOpsPerScript
  stack : Short s.stack
  altstack : Short s.altstack

theorem callsWeigh_work : CallsWeigh Event.work 0 := fun _ _ _ => le_rfl

theorem KeysOnTop.unique {stack : List Bytes} {m n : Nat} (hm : KeysOnTop flags stack m)
    (hn : KeysOnTop flags stack n) : m = n := by
  obtain ⟨top, bn, htop, hbn, hm⟩ := hm
  obtain ⟨top', bn', htop', hbn', hn⟩ := hn
  cases htop.symm.trans htop'
  cases hbn.symm.trans hbn'
  exact Int.ofNat_inj.mp (hm.symm.trans hn)

theorem execOp_work_of_not_multisig {op : Op} (hop : ∀ verify, op ≠ .checkMultiSig verify)
    (v : EvalVars) :
    cost Event.work (execOp crypto flags checker sigversion fExec pc op v) = 0 := by
  obtain hzero | ⟨-, hle⟩ | ⟨⟨verify, hmultisig⟩, -⟩ :=
    @execOp_cost crypto flags checker sigversion fExec pc Event.work 0 callsWeigh_work op v
  · exact hzero
  · exact Nat.le_zero.mp hle
  · exact absurd hmultisig (hop verify)

theorem execOp_work (op : Op) (hs : Safe s) :
    s.nOpCount + cost Event.work (execOp crypto flags checker sigversion fExec pc op (ofState s)) ≤
        maxOpsPerScript ∧
      Ends anyError (Verium.execOp crypto flags checker sigversion fExec pc op s) fun t =>
        s.nOpCount + cost Event.work (execOp crypto flags checker sigversion fExec pc op
          (ofState s)) ≤ t.nOpCount ∧ Safe t := by
  by_cases hop : ∀ verify, op ≠ .checkMultiSig verify
  · rw [execOp_work_of_not_multisig hop]
    refine ⟨hs.opCount, (execOp_kept op hop hs.stack hs.altstack).mono ?_⟩
    rintro t ⟨hcount, hst, halt⟩
    exact ⟨hcount.ge, hcount ▸ hs.opCount, hst, halt⟩
  · push Not at hop
    obtain ⟨verify, rfl⟩ := hop
    have hkept := @execCheckMultiSig_kept crypto flags checker sigversion verify s.pbegincodehash
      s.nOpCount s.stack hs.stack
    have hcost : MultisigCost flags Event.work 0 s.nOpCount (storage s.stack) (cost Event.work
        (execOp crypto flags checker sigversion fExec pc (.checkMultiSig verify) (ofState s))) := by
      rw [execOp.eq_def, cost_bind_eq fun _ => cost_pure _ _]
      exact execCheckMultiSig_cost callsWeigh_work verify s.pbegincodehash s.nOpCount _
    constructor
    · obtain hzero | ⟨n, -, -, hlimit, hle⟩ := hcost
      · exact hzero ▸ hs.opCount
      · simp only [Event.work] at hle
        omega
    · apply hkept.bind
      rintro p ⟨hst, hlimit, n, hn, hcount⟩
      refine ⟨?_, hlimit, hst, hs.altstack⟩
      obtain hzero | ⟨m, hm, -, -, hle⟩ := hcost
      · rw [hzero]
        exact hcount ▸ Nat.le_add_right _ _
      · cases hm.unique hn
        simp only [Event.work] at hle
        exact (Nat.add_le_add_left (by omega) _).trans hcount.ge

/-- The work of an operation that is read, with the operation itself. -/
theorem stepOperation_work (hvch : vchPushValue.length ≤ maxScriptElementSize) (hs : Safe s) :
    s.nOpCount + cost Event.work
        (execOperation crypto flags checker sigversion fExec opcode vchPushValue pc (ofState s)) ≤
        maxOpsPerScript + Event.work (.operation opcode) ∧
      Ends anyError (stepOperation crypto flags checker sigversion fExec opcode vchPushValue pc s)
        fun t => s.nOpCount + cost Event.work (execOperation crypto flags checker sigversion fExec
          opcode vchPushValue pc (ofState s)) ≤ t.nOpCount + Event.work (.operation opcode) ∧
          Safe t := by
  unfold execOperation stepOperation
  split
  next =>
    rw [cost_emit_bind, cost_bind_eq fun _ => cost_pure _ _, cost_liftM, Nat.add_zero]
    have hcount := hs.opCount
    refine ⟨by omega, Ends.andThen fun _ => ⟨le_rfl, hs.opCount, ?_, hs.altstack⟩⟩
    exact short_cons.mpr ⟨hvch, hs.stack⟩
  next =>
    split
    next =>
      obtain ⟨hlimit, hends⟩ := @execOp_work crypto flags checker sigversion fExec pc s
        (Op.ofOpcode opcode) hs
      rw [cost_emit_bind]
      refine ⟨by omega, hends.mono ?_⟩
      rintro t ⟨hcount, ht⟩
      exact ⟨by omega, ht⟩
    next => exact ⟨hs.opCount.trans (Nat.le_add_right _ _), Nat.le_add_right _ _, hs⟩

theorem Safe.counted (hs : Safe s) (hwithin : WithinLimits opcode vchPushValue s.nOpCount) :
    Safe { s with nOpCount := countedOps opcode s.nOpCount } := by
  refine ⟨?_, hs.stack, hs.altstack⟩
  by_cases hop : Opcode.op16 < opcode
  · exact hwithin.2 hop
  · simpa [countedOps, hop] using hs.opCount

theorem countedOps_work (opcode : UInt8) (n : Nat) :
    countedOps opcode n = n + Event.work (.operation opcode) := by
  simp only [countedOps, Event.work]
  split <;> rfl

theorem evalTurn_work (hs : Safe s) :
    s.nOpCount + cost Event.work (evalTurn crypto flags checker sigversion opcode vchPushValue pc
        (ofState s)) ≤ maxOpsPerScript ∧
      ∀ t, evalStep crypto flags checker sigversion s (.op opcode vchPushValue pc) = .ok t →
        s.nOpCount + cost Event.work (evalTurn crypto flags checker sigversion opcode vchPushValue
          pc (ofState s)) ≤ t.nOpCount ∧ Safe t := by
  have hcost := @evalTurn_cost crypto flags checker sigversion pc Event.work opcode vchPushValue s 0
    fun _ _ _ _ => le_rfl
  constructor
  · obtain hzero | ⟨hwithin, hle⟩ := hcost
    · exact hzero ▸ hs.opCount
    · obtain ⟨hlimit, -⟩ := @stepOperation_work crypto flags checker sigversion (s.vfExec.all id) pc
        opcode vchPushValue _ hwithin.1 (hs.counted hwithin)
      simp only [countedOps_work] at hlimit hle
      omega
  · intro t ht
    obtain ⟨hwithin, hop⟩ := evalStep_eq_ok ht
    obtain ⟨-, hends⟩ := @stepOperation_work crypto flags checker sigversion (s.vfExec.all id) pc
      opcode vchPushValue _ hwithin.1 (hs.counted hwithin)
    rw [hop] at hends
    obtain ⟨hcount, hsafe⟩ := hends
    refine ⟨?_, hsafe⟩
    simp only [countedOps_work] at hcount hcost
    obtain hzero | ⟨-, hle⟩ := hcost
    · omega
    · omega

theorem evalLoop_work (turns : Nat) (hs : Safe s) :
    cost Event.work (evalLoop crypto flags checker sigversion turns pc (ofState s)) ≤
      maxOpsPerScript - s.nOpCount := by
  refine evalLoop_cost (W := fun _ s b => Safe s ∧ b = maxOpsPerScript - s.nOpCount) ?_ turns
    ⟨hs, rfl⟩
  rintro pc s _ opcode vchPushValue rest ⟨hs, rfl⟩ -
  obtain ⟨hlimit, hnext⟩ := @evalTurn_work crypto flags checker sigversion rest opcode
    vchPushValue s
    hs
  refine ⟨by omega, fun t ht => ?_⟩
  obtain ⟨hcount, hsafe⟩ := hnext t ht
  have := hsafe.opCount
  exact ⟨_, ⟨hsafe, rfl⟩, by omega⟩

end Work

section Sizes

variable {crypto : Crypto} {flags : EvalFlags} {checker : SignatureChecker}
  {sigversion : SigVersion} {fExec : Bool} {pc : CScript} {opcode : UInt8} {vchPushValue : Bytes}
  {s t : EvalState}

/-- The stacks are within the limits. -/
def InBounds (stack altstack : List Bytes) : Prop :=
  stack.length + altstack.length ≤ maxStackSize ∧
    ∀ vch ∈ stack ++ altstack, vch.length ≤ maxScriptElementSize

instance InBounds.decidable (stack altstack : List Bytes) : Decidable (InBounds stack altstack) :=
  inferInstanceAs (Decidable (_ ∧ _))

/-- One for a turn that ends outside the limits. -/
def Event.oversized : Event → Nat
  | .turn stack altstack => if InBounds stack altstack then 0 else 1
  | .operation _ | .multisigKeys _ | .checkSig _ _ _ => 0

theorem callsWeigh_oversized : CallsWeigh Event.oversized 0 := fun _ _ _ => le_rfl

theorem execOperation_oversized (v : EvalVars) :
    cost Event.oversized
      (execOperation crypto flags checker sigversion fExec opcode vchPushValue pc v) = 0 := by
  obtain hle | ⟨-, heq⟩ := @execOperation_cost crypto flags checker sigversion fExec pc
    Event.oversized opcode vchPushValue v
  · exact Nat.le_zero.mp hle
  · rw [heq, Event.oversized, Nat.zero_add]
    obtain hzero | ⟨-, hle⟩ | ⟨-, hmultisig⟩ :=
      @execOp_cost crypto flags checker sigversion fExec pc
      Event.oversized 0 callsWeigh_oversized (Op.ofOpcode opcode) v
    · exact hzero
    · exact Nat.le_zero.mp hle
    · obtain hzero | ⟨n, -, -, -, hle⟩ := hmultisig
      · exact hzero
      · simpa [Event.oversized] using hle

theorem evalTurn_oversized (hs : Safe s) :
    cost Event.oversized (evalTurn crypto flags checker sigversion opcode vchPushValue pc
      (ofState s)) = 0 := by
  have hcost := @evalTurn_cost crypto flags checker sigversion pc Event.oversized
    opcode vchPushValue
    s 0 fun t hwithin hop hlength => ?_
  · obtain hzero | ⟨-, hle⟩ := hcost
    · exact hzero
    · rw [execOperation_oversized] at hle
      exact Nat.le_zero.mp hle
  · obtain ⟨-, hends⟩ := @stepOperation_work crypto flags checker sigversion (s.vfExec.all id) pc
      opcode vchPushValue _ hwithin.1 (hs.counted hwithin)
    rw [hop] at hends
    have hbounds : InBounds (storage t.stack) (storage t.altstack) := by
      refine ⟨by simpa using hlength, fun vch hvch => ?_⟩
      rw [List.mem_append, mem_storage, mem_storage] at hvch
      exact hvch.elim (hends.2.stack vch) (hends.2.altstack vch)
    rw [Event.oversized, if_pos hbounds]

theorem evalLoop_oversized (turns : Nat) (hs : Safe s) :
    cost Event.oversized (evalLoop crypto flags checker sigversion turns pc (ofState s)) = 0 := by
  refine Nat.le_zero.mp (evalLoop_cost (W := fun _ s _ => Safe s) ?_ turns hs)
  intro pc s b opcode vchPushValue rest hs _
  rw [evalTurn_oversized hs]
  exact ⟨Nat.zero_le b, fun t ht => ⟨0, (evalTurn_work hs).2 t ht |>.2, Nat.zero_le b⟩⟩

end Sizes

/-- `EvalScript` ends with an answer, not with an exception, an assertion or an overflow, for every
script, as long as the elements it is given are short. Its work is within the limit on operations,
and the stacks are within theirs at the end of every turn. -/
theorem evalScript_safe (crypto : Crypto) (stack : List Bytes) (script : CScript) (flags : UInt32)
    (checker : SignatureChecker) (sigversion : SigVersion)
    (hshort : ∀ vch ∈ stack, vch.length ≤ maxScriptElementSize) :
    let run := evalScript crypto stack script flags checker sigversion
    ((∃ left, run.result = .ok left) ∨ ∃ serror, run.result = .error (.script serror)) ∧
      cost Event.work run ≤ maxOpsPerScript ∧
      ∀ main altstack, .turn main altstack ∈ run.trace →
        main.length + altstack.length ≤ maxStackSize ∧
          ∀ vch ∈ main ++ altstack, vch.length ≤ maxScriptElementSize := by
  obtain ⟨l, rfl⟩ : ∃ l, stack = storage l := ⟨stack.reverse, (List.reverse_reverse stack).symm⟩
  have hsafe : Safe (startState l script) :=
    ⟨Nat.zero_le _, fun vch hvch => hshort vch (mem_storage.mpr hvch), short_nil⟩
  refine ⟨?_, ?_, fun main altstack hturn => ?_⟩
  · have hresult := @evalScriptWith_result crypto (evalFlags flags) checker sigversion l script
    rw [evalScript, hresult]
    cases Verium.evalScriptWith crypto (evalFlags flags) checker sigversion l script with
    | ok left => exact .inl ⟨_, rfl⟩
    | error serror => exact .inr ⟨serror, rfl⟩
  · exact evalScriptWith_cost l script (evalLoop_work script.length hsafe)
  · have hzero : cost Event.oversized (evalScript crypto (storage l) script flags checker
        sigversion) = 0 :=
      Nat.le_zero.mp (evalScriptWith_cost l script
        (Nat.le_of_eq (evalLoop_oversized script.length hsafe)))
    have hinside := weight_eq_zero hzero hturn
    by_contra hout
    have hout : ¬ InBounds main altstack := hout
    simp [Event.oversized, hout] at hinside

/-- `OP_1ADD` on two bytes that are no minimal number. -/
theorem increment_safe :
    (∀ vch ∈ [[0x05, (0x00 : UInt8)]], vch.length ≤ maxScriptElementSize) ∧
      let run := evalScript sampleCrypto [[0x05, 0x00]] [0x8b] 0 sameBytesChecker .base
      ((∃ left, run.result = .ok left) ∨ ∃ serror, run.result = .error (.script serror)) ∧
        cost Event.work run ≤ maxOpsPerScript ∧
        ∀ main altstack, .turn main altstack ∈ run.trace →
          main.length + altstack.length ≤ maxStackSize ∧
            ∀ vch ∈ main ++ altstack, vch.length ≤ maxScriptElementSize := by
  have hshort : ∀ vch ∈ [[0x05, (0x00 : UInt8)]], vch.length ≤ maxScriptElementSize := by
    simp [maxScriptElementSize]
  exact ⟨hshort, evalScript_safe _ _ _ _ _ _ hshort⟩

end Verium.Machine
