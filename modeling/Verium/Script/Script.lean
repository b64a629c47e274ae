import Verium.Primitives.Serialize

/-!
Scripts as byte strings: reading operations off a script, counting signature checks, and
the shape tests of `script.cpp`. Every loop of the source over a script reads operations
from the front until the end or until an operation does not fit; `scriptOps` is that
sequence of reads, and the loops are folds over it.
-/

namespace Verium

open Lib

def maxScriptElementSize : Nat := 520
def maxOpsPerScript : Nat := 201
def maxPubkeysPerMultisig : Nat := 20
def maxScriptSize : Nat := 10000
def maxStackSize : Nat := 1000
def locktimeThreshold : Nat := 500000000

namespace Opcode

def op0 : UInt8 := 0x00
def pushData1 : UInt8 := 0x4c
def pushData2 : UInt8 := 0x4d
def pushData4 : UInt8 := 0x4e
def op1 : UInt8 := 0x51
def op16 : UInt8 := 0x60
def opIf : UInt8 := 0x63
def opEndIf : UInt8 := 0x68
def opReturn : UInt8 := 0x6a
def opDup : UInt8 := 0x76
def opEqual : UInt8 := 0x87
def opEqualVerify : UInt8 := 0x88
def opHash160 : UInt8 := 0xa9
def opCodeSeparator : UInt8 := 0xab
def opCheckSig : UInt8 := 0xac
def opCheckSigVerify : UInt8 := 0xad
def opCheckMultiSig : UInt8 := 0xae
def opCheckMultiSigVerify : UInt8 := 0xaf
def invalidOpcode : UInt8 := 0xff

end Opcode

/-- The immediate operand of `nSize` bytes, and what follows it. -/
def takeOperand (nSize : Nat) (pc : CScript) : Option (Bytes × CScript) :=
  if pc.length < nSize then none else some (pc.take nSize, pc.drop nSize)

/-- The operand whose `width`-byte length stands at the front of `pc`. -/
def takeSizedOperand (width : Nat) (pc : CScript) : Option (Bytes × CScript) :=
  if pc.length < width then none
  else takeOperand (leNat (pc.take width)) (pc.drop width)

/-- `GetScriptOp`: the opcode at the front of `pc`, its immediate operand, and the rest
of the script; `none` when there is no complete operation. -/
def getScriptOp (pc : CScript) : Option (UInt8 × Bytes × CScript) :=
  match pc with
  | [] => none
  | opcode :: rest =>
      let operand :=
        if opcode < Opcode.pushData1 then takeOperand opcode.toNat rest
        else if opcode = Opcode.pushData1 then takeSizedOperand 1 rest
        else if opcode = Opcode.pushData2 then takeSizedOperand 2 rest
        else if opcode = Opcode.pushData4 then takeSizedOperand 4 rest
        else some ([], rest)
      operand.map fun (vch, rest) => (opcode, vch, rest)

/-- One turn of a loop that reads a script: a complete operation with the script after
it, or the discovery that the rest is not an operation. -/
inductive ScriptRead where
  | op (opcode : UInt8) (vchPushValue : Bytes) (rest : CScript)
  | bad
deriving DecidableEq, Repr

/-- The reads of `while (pc < end) GetOp(pc, ..)`, at most `fuel` of them. -/
def readOps : (fuel : Nat) → (pc : CScript) → List ScriptRead
  | 0, _ => []
  | _, [] => []
  | fuel + 1, pc =>
      match getScriptOp pc with
      | none => [.bad]
      | some (opcode, vch, rest) => .op opcode vch rest :: readOps fuel rest

/-- All reads of a script. An operation takes at least one byte, so the script's length
bounds their number. -/
def scriptOps (script : CScript) : List ScriptRead :=
  readOps script.length script

theorem takeOperand_length {nSize : Nat} {pc : CScript} {vch : Bytes} {rest : CScript}
    (h : takeOperand nSize pc = some (vch, rest)) : vch.length + rest.length ≤ pc.length := by
  unfold takeOperand at h
  split at h
  · cases h
  · cases h
    rw [← List.length_append, List.take_append_drop]

theorem takeSizedOperand_length {width : Nat} {pc : CScript} {vch : Bytes} {rest : CScript}
    (h : takeSizedOperand width pc = some (vch, rest)) : vch.length + rest.length ≤ pc.length := by
  unfold takeSizedOperand at h
  split at h
  · cases h
  · have hrest := takeOperand_length h
    simp only [List.length_drop] at hrest
    omega

theorem getScriptOp_length {pc : CScript} {opcode : UInt8} {vch : Bytes} {rest : CScript}
    (h : getScriptOp pc = some (opcode, vch, rest)) : vch.length + rest.length < pc.length := by
  cases pc with
  | nil => cases h
  | cons op tail =>
      simp only [getScriptOp, Option.map_eq_some_iff] at h
      obtain ⟨⟨vch', rest'⟩, hoperand, heq⟩ := h
      simp only [Prod.mk.injEq] at heq
      obtain ⟨-, rfl, rfl⟩ := heq
      have hle : vch'.length + rest'.length ≤ tail.length := by
        split at hoperand
        · exact takeOperand_length hoperand
        · split at hoperand
          · exact takeSizedOperand_length hoperand
          · split at hoperand
            · exact takeSizedOperand_length hoperand
            · split at hoperand
              · exact takeSizedOperand_length hoperand
              · cases hoperand
                simp
      simp only [List.length_cons]
      omega

theorem length_readOps_le (fuel : Nat) (pc : CScript) : (readOps fuel pc).length ≤ fuel := by
  fun_induction readOps fuel pc with
  | case1 => exact le_rfl
  | case2 => exact Nat.zero_le _
  | case3 => simp
  | case4 fuel pc _ opcode vch rest _ ih => simpa using ih

/-- Any two amounts of fuel that cover the script's length give the same reads. -/
theorem readOps_fuel {fuel other : Nat} {pc : CScript}
    (hfuel : pc.length ≤ fuel) (hother : pc.length ≤ other) :
    readOps fuel pc = readOps other pc := by
  induction fuel generalizing other pc with
  | zero =>
      have hnil : pc = [] := List.eq_nil_of_length_eq_zero (by omega)
      subst hnil
      cases other <;> rfl
  | succ fuel ih =>
      cases pc with
      | nil => cases other <;> rfl
      | cons op tail =>
        obtain ⟨other, rfl⟩ : ∃ k, other = k + 1 :=
          ⟨other - 1, by simp only [List.length_cons] at hother; omega⟩
        unfold readOps
        cases hop : getScriptOp (op :: tail) with
        | none => rfl
        | some read =>
          obtain ⟨opcode, vch, rest⟩ := read
          have hlen := getScriptOp_length hop
          simp only [List.length_cons] at hlen hfuel hother
          exact congrArg (List.cons _) (ih (by omega) (by omega))

@[simp]
theorem scriptOps_nil : scriptOps [] = [] :=
  rfl

theorem scriptOps_of_getScriptOp {pc : CScript} {opcode : UInt8} {vch : Bytes} {rest : CScript}
    (h : getScriptOp pc = some (opcode, vch, rest)) :
    scriptOps pc = .op opcode vch rest :: scriptOps rest := by
  cases pc with
  | nil => cases h
  | cons op tail =>
    have hlen := getScriptOp_length h
    rw [List.length_cons] at hlen
    rw [scriptOps, List.length_cons, readOps, h]
    · exact congrArg (List.cons _) (readOps_fuel (by omega) le_rfl)
    · simp

/-- `DecodeOP_N` on `OP_1` to `OP_16`. -/
def decodeOpN (opcode : UInt8) : Nat :=
  if opcode = Opcode.op0 then 0 else opcode.toNat - (Opcode.op1.toNat - 1)

/-- One turn of the loop of `GetSigOpCount(fAccurate)`; the state is the count so far and
the previous opcode. An incomplete operation ends the loop with the count unchanged. -/
def countSigOp (fAccurate : Bool) : Nat × UInt8 → ScriptRead → Nat × UInt8
  | (n, lastOpcode), .bad => (n, lastOpcode)
  | (n, lastOpcode), .op opcode _ _ =>
      if opcode = Opcode.opCheckSig ∨ opcode = Opcode.opCheckSigVerify then
        (n + 1, opcode)
      else if opcode = Opcode.opCheckMultiSig ∨ opcode = Opcode.opCheckMultiSigVerify then
        if fAccurate ∧ Opcode.op1 ≤ lastOpcode ∧ lastOpcode ≤ Opcode.op16 then
          (n + decodeOpN lastOpcode, opcode)
        else
          (n + maxPubkeysPerMultisig, opcode)
      else
        (n, opcode)

def getSigOpCount (fAccurate : Bool) (script : CScript) : Nat :=
  ((scriptOps script).foldl (countSigOp fAccurate) (0, Opcode.invalidOpcode)).1

theorem decodeOpN_le {lastOpcode : UInt8} (h : lastOpcode ≤ Opcode.op16) :
    decodeOpN lastOpcode ≤ maxPubkeysPerMultisig := by
  have hle : lastOpcode.toNat ≤ 0x60 := h
  unfold decodeOpN
  split
  · exact Nat.zero_le _
  · simp only [Opcode.op1, maxPubkeysPerMultisig, UInt8.reduceToNat]
    omega

theorem countSigOp_le (fAccurate : Bool) (state : Nat × UInt8) (read : ScriptRead) :
    (countSigOp fAccurate state read).1 ≤ state.1 + maxPubkeysPerMultisig := by
  have hmax : 1 ≤ maxPubkeysPerMultisig := by decide
  unfold countSigOp
  split
  · exact Nat.le_add_right _ _
  · split
    · exact Nat.add_le_add_left hmax _
    · split
      · split
        next hsmall => exact Nat.add_le_add_left (decodeOpN_le hsmall.2.2) _
        next => exact le_rfl
      · exact Nat.le_add_right _ _

theorem getSigOpCount_le (fAccurate : Bool) (script : CScript) :
    getSigOpCount fAccurate script ≤ maxPubkeysPerMultisig * script.length := by
  have hfold : ∀ (ops : List ScriptRead) (state : Nat × UInt8),
      (ops.foldl (countSigOp fAccurate) state).1 ≤
        state.1 + maxPubkeysPerMultisig * ops.length := by
    intro ops
    induction ops with
    | nil => exact fun state => le_rfl
    | cons read ops ih =>
      intro state
      have hstep := countSigOp_le fAccurate state read
      have hrest := ih (countSigOp fAccurate state read)
      rw [List.foldl_cons, List.length_cons, Nat.mul_succ]
      omega
  calc
    getSigOpCount fAccurate script ≤ 0 + maxPubkeysPerMultisig * (scriptOps script).length :=
      hfold _ _
    _ ≤ maxPubkeysPerMultisig * script.length := by
      rw [Nat.zero_add]
      exact Nat.mul_le_mul_left _ (length_readOps_le _ _)

def isPayToScriptHash (script : CScript) : Bool :=
  script.length = 23 && script[0]? = some Opcode.opHash160 &&
    script[1]? = some 0x14 && script[22]? = some Opcode.opEqual

/-- Segregated witness is disabled on this chain: no script is a witness program. -/
def isWitnessProgram (_ : CScript) : Option (Nat × Bytes) :=
  none

def ScriptRead.isPush : ScriptRead → Bool
  | .op opcode _ _ => opcode ≤ Opcode.op16
  | .bad => false

def isPushOnly (script : CScript) : Bool :=
  (scriptOps script).all ScriptRead.isPush

def isUnspendable (script : CScript) : Bool :=
  script.head? = some Opcode.opReturn || maxScriptSize < script.length

/-- The data of the last operation read, as the reused `vData` holds it. -/
def lastPushed (ops : List ScriptRead) : Bytes :=
  match ops.getLast? with
  | some (.op _ vch _) => vch
  | _ => []

/-- `CScript::GetSigOpCount(const CScript& scriptSig)`, called on the scriptPubKey. -/
def getSigOpCountSpending (scriptPubKey scriptSig : CScript) : Nat :=
  if isPayToScriptHash scriptPubKey then
    if isPushOnly scriptSig then
      getSigOpCount true (lastPushed (scriptOps scriptSig))
    else 0
  else getSigOpCount true scriptPubKey

theorem length_lastPushed_le (script : CScript) :
    (lastPushed (scriptOps script)).length ≤ script.length := by
  have hreads : ∀ (fuel : Nat) (pc : CScript) (opcode : UInt8) (vch : Bytes) (rest : CScript),
      .op opcode vch rest ∈ readOps fuel pc → vch.length ≤ pc.length := by
    intro fuel pc
    fun_induction readOps fuel pc with
    | case1 => exact fun _ _ _ hmem => absurd hmem List.not_mem_nil
    | case2 => exact fun _ _ _ hmem => absurd hmem List.not_mem_nil
    | case3 => simp
    | case4 fuel pc _ opcode' vch' rest' hop ih =>
      intro opcode vch rest hmem
      have hlen := getScriptOp_length hop
      rcases List.mem_cons.mp hmem with heq | hmem
      · cases heq
        omega
      · have hrest := ih opcode vch rest hmem
        omega
  unfold lastPushed
  split
  next opcode vch rest hlast => exact hreads _ _ _ _ _ (List.mem_of_getLast? hlast)
  next => exact Nat.zero_le _

/-- `CScript::operator<<(const std::vector<unsigned char>&)` on the empty script: the push
operation for `b`. -/
def pushBytes (b : Bytes) : CScript :=
  if b.length < Opcode.pushData1.toNat then UInt8.ofNat b.length :: b
  else if b.length ≤ 0xff then Opcode.pushData1 :: UInt8.ofNat b.length :: b
  else if b.length ≤ 0xffff then Opcode.pushData2 :: leBytes 2 b.length ++ b
  else Opcode.pushData4 :: leBytes 4 b.length ++ b

/-- Delete every copy of `b` at the front of `pc`, counting them. -/
def skipCopies (b : CScript) : (fuel : Nat) → (pc : CScript) → CScript × Nat
  | 0, pc => (pc, 0)
  | fuel + 1, pc =>
      if b.isPrefixOf pc then
        let (pc, nFound) := skipCopies b fuel (pc.drop b.length)
        (pc, nFound + 1)
      else (pc, 0)

/-- The do-while loop of `FindAndDelete`: copies of `b` are deleted wherever an operation
starts; the rest is kept. -/
def findAndDeleteLoop (b : CScript) : (fuel : Nat) → (pc : CScript) → CScript × Nat
  | 0, pc => (pc, 0)
  | fuel + 1, pc =>
      let (pc2, nFound) := skipCopies b pc.length pc
      match getScriptOp pc2 with
      | none => (pc2, nFound)
      | some (_, _, rest) =>
          let (result, nRest) := findAndDeleteLoop b fuel rest
          (pc2.take (pc2.length - rest.length) ++ result, nFound + nRest)

/-- `FindAndDelete(script, b)`: the script left, and how many copies were deleted. -/
def findAndDelete (script b : CScript) : CScript × Nat :=
  if b.isEmpty then (script, 0)
  else
    let (result, nFound) := findAndDeleteLoop b (script.length + 1) script
    if 0 < nFound then (result, nFound) else (script, 0)

end Verium
