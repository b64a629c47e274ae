import Verium.Lib.Lists
import Verium.Script.MachineOps

/-!
`OP_CHECKMULTISIG`. Its three loops, written with positions in the stack, are related to the lists
of keys and signatures that lie there; the loop that matches them finds a matching if there is one.
-/

namespace Verium.Machine

open Lib Lib.Traced

section Multisig

variable {crypto : Crypto} {flags : EvalFlags} {checker : SignatureChecker}
  {sigversion : SigVersion} {l keys sigs : List Bytes}

theorem stacktop_of_isPrefix {x : Bytes} {xs : List Bytes} {n : Nat} (h : x :: xs <+: l.drop n) :
    stacktop (storage l) (-((n : Int) + 1)) = .ok x := by
  obtain ⟨rest, hrest⟩ := h
  have hget : l[n]? = some x := by
    have := congrArg List.head? hrest
    simpa using this.symm
  have hdepth : (-(-((n : Int) + 1)) - 1).toNat = n := by omega
  rw [stacktop_storage, if_pos (by omega), hdepth, hget, orStop_some]

theorem isPrefix_drop_succ {x : Bytes} {xs : List Bytes} {n : Nat} (h : x :: xs <+: l.drop n) :
    xs <+: l.drop (n + 1) := by
  obtain ⟨rest, hrest⟩ := h
  refine ⟨rest, ?_⟩
  rw [← List.tail_drop, ← hrest]
  rfl

theorem dropSignatures_eq {depth : Nat} {isig k : Int} (hdepth : isig + k = depth + 1)
    (hsigs : sigs <+: l.drop depth) (scriptCode : CScript) :
    dropSignatures flags sigversion (storage l) isig sigs.length k scriptCode =
      (sigs.foldlM (dropSignature flags sigversion) scriptCode).mapError .script := by
  induction sigs generalizing depth k scriptCode with
  | nil => rfl
  | cons sig sigs ih =>
    have htop : stacktop (storage l) (-isig - k) = .ok sig := by
      rw [← stacktop_of_isPrefix hsigs]
      congr 1
      omega
    simp only [List.length_cons, dropSignatures, htop, ok_bind, call, List.foldlM_cons]
    cases dropSignature flags sigversion scriptCode sig with
    | error e => rfl
    | ok scriptCode => exact ih (by omega) (isPrefix_drop_succ hsigs) scriptCode

theorem matchSignatures_result {nKey nSig : Nat} {ikey isig : Int} (hikey : ikey = nKey + 1)
    (hisig : isig = nSig + 1) {turns : Nat} (hturns : keys.length < turns)
    (hkeys : keys <+: l.drop nKey) (hsigs : sigs <+: l.drop nSig)
    (hle : sigs.length ≤ keys.length) (scriptCode : CScript) :
    (matchSignatures crypto flags checker sigversion (storage l) scriptCode turns true isig ikey
      sigs.length keys.length).result =
      (checkMultiSigLoop crypto flags checker sigversion scriptCode keys sigs).mapError
        .script := by
  induction keys generalizing sigs nKey nSig ikey isig turns with
  | nil =>
    obtain rfl : sigs = [] := List.eq_nil_of_length_eq_zero (by simpa using hle)
    obtain ⟨turns, rfl⟩ : ∃ k, turns = k + 1 := ⟨turns - 1, by omega⟩
    simp [matchSignatures, checkMultiSigLoop]
  | cons key keys ih =>
    obtain ⟨turns, rfl⟩ : ∃ k, turns = k + 1 := ⟨turns - 1, by omega⟩
    cases sigs with
    | nil => simp [matchSignatures, checkMultiSigLoop]
    | cons sig sigs =>
      have hpos : (true = true) ∧ 0 < ((sig :: sigs).length : Int) := by simp
      rw [matchSignatures, if_pos hpos]
      simp only [hikey, hisig, stacktop_of_isPrefix hkeys, stacktop_of_isPrefix hsigs, result_bind,
        result_liftM, result_pure,
        ok_bind, call, checkMultiSigLoop, checkOneSig, checkSig, result_emit]
      cases checkSignatureEncoding crypto flags sig with
      | error e => rfl
      | ok =>
        cases checkPubKeyEncoding flags key sigversion with
        | error e => rfl
        | ok =>
          simp only [mapError_ok, ok_bind, pure_bind]
          simp only [List.length_cons] at hle hturns
          have hkeysLeft : ((key :: keys).length : Int) - 1 = keys.length := by simp
          cases checker.checkSig sig key scriptCode sigversion with
          | true =>
            have hsigsLeft : ((sig :: sigs).length : Int) - 1 = sigs.length := by simp
            have hgoOn : ¬ keys.length < sigs.length := by omega
            have hflag : decide (¬ (keys.length : Int) < sigs.length) = true := by simp; omega
            rw [if_pos rfl, if_pos rfl, hkeysLeft, hsigsLeft, hflag, if_pos rfl, if_neg hgoOn]
            exact ih (by omega) (by omega) (by omega) (isPrefix_drop_succ hkeys)
              (isPrefix_drop_succ hsigs) (by omega)
          | false =>
            rw [if_neg Bool.false_ne_true, if_neg Bool.false_ne_true, hkeysLeft,
              if_neg Bool.false_ne_true]
            by_cases htooFew : keys.length < (sig :: sigs).length
            · have hflag : decide (¬ (keys.length : Int) < (sig :: sigs).length) = false := by
                simpa using htooFew
              obtain ⟨turns, rfl⟩ : ∃ k, turns = k + 1 := ⟨turns - 1, by omega⟩
              rw [hflag, if_pos htooFew, matchSignatures]
              rfl
            · have hflag : decide (¬ (keys.length : Int) < (sig :: sigs).length) = true := by
                simpa using htooFew
              rw [hflag, if_neg htooFew]
              exact ih (by omega) rfl (by omega) (isPrefix_drop_succ hkeys) hsigs (by omega)

theorem cleanUp_succ (fSuccess : Bool) (i : Nat) (ikey2 : Int) (top : Bytes) :
    cleanUp flags fSuccess (i + 2) ikey2 (storage (top :: l)) =
      if ¬ fSuccess ∧ flags.nullFail ∧ ikey2 = 0 ∧ top ≠ [] then .error (.script .sigNullFail)
      else cleanUp flags fSuccess (i + 1) (if 0 < ikey2 then ikey2 - 1 else ikey2) (storage l) := by
  rw [cleanUp, if_pos (by omega)]
  simp only [stacktop_top, popstack_storage_cons, ok_bind, setErrorIf, rejectIf]
  split <;> rfl

/-- Popping the arguments of a multisig: the part above the signatures is not looked at. -/
theorem cleanUp_eq (fSuccess : Bool) (above sigs rest : List Bytes) :
    cleanUp flags fSuccess (above.length + sigs.length + 1) above.length
      (storage (above ++ (sigs ++ rest))) =
      embed (fun _ => storage rest)
        (rejectIf (¬ fSuccess ∧ flags.nullFail ∧ ∃ sig ∈ sigs, sig ≠ []) .sigNullFail) := by
  induction above with
  | nil =>
    rw [List.length_nil, Nat.zero_add]
    induction sigs with
    | nil =>
      rw [rejectIf_of_not (by simp)]
      rfl
    | cons sig sigs ih =>
      rw [List.nil_append] at ih ⊢
      rw [List.length_cons, List.cons_append, cleanUp_succ]
      by_cases hfail : ¬ fSuccess ∧ flags.nullFail = true
      · by_cases hsig : sig = []
        · rw [if_neg (fun h => h.2.2.2 hsig), if_neg (by simp), ih]
          simp [rejectIf, hsig]
        · rw [if_pos ⟨hfail.1, hfail.2, rfl, hsig⟩, rejectIf,
            if_pos ⟨hfail.1, hfail.2, sig, List.mem_cons_self, hsig⟩]
          rfl
      · rw [if_neg (fun h => hfail ⟨h.1, h.2.1⟩), if_neg (by simp), ih,
          rejectIf_of_not (fun h => hfail ⟨h.1, h.2.1⟩),
          rejectIf_of_not (fun h => hfail ⟨h.1, h.2.1⟩)]
  | cons top above ih =>
    have hpos : ¬ ((top :: above).length : Int) = 0 := by simp; omega
    have hlen : (top :: above).length + sigs.length + 1 = above.length + sigs.length + 2 := by
      simp
      omega
    have hkey : ((top :: above).length : Int) - 1 = above.length := by simp
    rw [hlen, List.cons_append, cleanUp_succ, if_neg (fun h => hpos h.2.2.1),
      if_pos (by simp), hkey, ih]

/-- The stack `OP_CHECKMULTISIG` works on, from the top. -/
def multisigStack (keysCount : Bytes) (keys : List Bytes) (sigsCount : Bytes) (sigs : List Bytes)
    (dummy : Bytes) (rest : List Bytes) : List Bytes :=
  keysCount :: (keys ++ sigsCount :: (sigs ++ dummy :: rest))

/-- What a multisig makes of its arguments. -/
def multisigOutcome (crypto : Crypto) (flags : EvalFlags) (checker : SignatureChecker)
    (sigversion : SigVersion) (verify : Bool) (pbegincodehash : CScript) (keys sigs : List Bytes)
    (dummy : Bytes) (rest : List Bytes) : Except ScriptError (List Bytes) := do
  let scriptCode ← sigs.foldlM (dropSignature flags sigversion) pbegincodehash
  let fSuccess ← checkMultiSigLoop crypto flags checker sigversion scriptCode keys sigs
  rejectIf (¬ fSuccess ∧ flags.nullFail ∧ ∃ sig ∈ sigs, sig ≠ []) .sigNullFail
  rejectIf (flags.nullDummy ∧ dummy ≠ []) .sigNullDummy
  pushOrVerify verify .checkMultiSigVerify fSuccess rest

theorem checkArguments_result (verify : Bool) (pbegincodehash : CScript)
    (keysCount sigsCount dummy : Bytes) (rest : List Bytes) (hle : sigs.length ≤ keys.length)
    {i ikey isig : Int} (hi : i = keys.length + sigs.length + 3) (hikey : ikey = 2)
    (hisig : isig = keys.length + 3) :
    (checkArguments crypto flags checker sigversion verify pbegincodehash
      (storage (multisigStack keysCount keys sigsCount sigs dummy rest)) i ikey isig keys.length
      sigs.length).result =
      embed storage (multisigOutcome crypto flags checker sigversion verify pbegincodehash keys
        sigs dummy rest) := by
  -- what lies above the signatures, and the positions the source computes
  let above := keysCount :: (keys ++ [sigsCount])
  have hlayout : multisigStack keysCount keys sigsCount sigs dummy rest =
      above ++ (sigs ++ dummy :: rest) := by
    simp [multisigStack, above]
  have habove : above.length = keys.length + 2 := by simp [above]
  have hkeys : keys <+: (multisigStack keysCount keys sigsCount sigs dummy rest).drop 1 := by
    simp [multisigStack]
  have hsigs : sigs <+: (multisigStack keysCount keys sigsCount sigs dummy rest).drop
      (keys.length + 2) := by
    rw [hlayout, ← habove, List.drop_left]
    exact List.prefix_append _ _
  have hpops : i.toNat = above.length + sigs.length + 1 := by omega
  have hikey2 : (keys.length : Int) + 2 = above.length := by omega
  simp only [checkArguments, result_bind, result_liftM, Int.toNat_natCast]
  rw [dropSignatures_eq (by omega) hsigs]
  refine mapError_bind fun scriptCode => ?_
  rw [matchSignatures_result (by omega) (by omega) (Nat.lt_succ_self _) hkeys hsigs hle]
  refine mapError_bind fun fSuccess => ?_
  rw [hpops, hikey2, hlayout, cleanUp_eq]
  refine embed_bind fun _ => ?_
  have hnotEmpty : ¬ (storage (dummy :: rest)).length < 1 := by simp
  simp only [setErrorIf_eq, rejectIf_of_not hnotEmpty, mapError_ok, ok_bind, stacktop_top,
    popstack_storage_cons, pushResult_eq]
  exact mapError_bind fun _ => rfl

theorem pair_embed (n : Nat) (x : Except ScriptError (List Bytes)) :
    (embed storage x >>= fun stack => .ok ((n : Int), stack)) =
      embed (fun p => ((p.1 : Int), storage p.2)) (x >>= fun stack => pure (n, stack)) := by
  cases x <;> rfl

theorem exists_take_of_drop {α : Type} {l rest : List α} {x : α} {n : Nat}
    (h : l.drop n = x :: rest) : ∃ front, n = front.length ∧ l = front ++ x :: rest := by
  refine ⟨l.take n, ?_, by rw [← h, List.take_append_drop]⟩
  have hlen := congrArg List.length h
  simp only [List.length_drop, List.length_cons] at hlen
  simp only [List.length_take]
  omega

theorem execCheckMultiSig_result (verify : Bool) (pbegincodehash : CScript) (nOpCount : Nat)
    (l : List Bytes) :
    (execCheckMultiSig crypto flags checker sigversion verify pbegincodehash nOpCount
      (storage l)).result =
      embed (fun p => ((p.1 : Int), storage p.2)) (Verium.execCheckMultiSig crypto flags checker
        sigversion verify pbegincodehash nOpCount l) := by
  rcases l with _ | ⟨keysCount, rest⟩
  · rfl
  have hsize : ¬ ((storage (keysCount :: rest)).length : Int) < 1 := by simp
  simp only [execCheckMultiSig, Verium.execCheckMultiSig, result_bind, result_liftM, result_emit,
    result_pure, setErrorIf_of_not hsize, ok_bind, stacktop_top, ofVch_eq, bind_map_left]
  refine mapError_bind fun bn => ?_
  generalize scriptNumGetInt bn = nKeysCount
  refine setErrorIf_bind Iff.rfl fun hkeysCount => ?_
  obtain ⟨nKeys, rfl⟩ : ∃ n : Nat, nKeysCount = n := ⟨nKeysCount.toNat, by omega⟩
  simp only [Int.toNat_natCast]
  refine setErrorIf_bind (by omega) fun _ => ?_
  cases hdrop : rest.drop nKeys with
  | nil =>
    have hshort := List.drop_eq_nil_iff.mp hdrop
    rw [setErrorIf_eq, rejectIf, if_pos (by simp; omega)]
    rfl
  | cons sigsCount rest2 =>
    obtain ⟨keys, rfl, rfl⟩ := exists_take_of_drop hdrop
    have hhere : sigsCount :: rest2 <+:
        (keysCount :: (keys ++ sigsCount :: rest2)).drop (keys.length + 1) := by simp
    have hdepth : -(1 + 1 + (keys.length : Int)) = -(((keys.length + 1 : Nat) : Int) + 1) := by
      omega
    rw [setErrorIf_of_not (by simp; omega), ok_bind, hdepth, stacktop_of_isPrefix hhere, ok_bind]
    refine mapError_bind fun bn => ?_
    generalize scriptNumGetInt bn = nSigsCount
    refine setErrorIf_bind Iff.rfl fun hcount => ?_
    obtain ⟨nSigs, rfl⟩ : ∃ n : Nat, nSigsCount = n := ⟨nSigsCount.toNat, by omega⟩
    refine setErrorIf_bind (by simp; omega) fun henough => ?_
    cases hdrop2 : rest2.drop nSigs with
    | nil =>
      have hshort := List.drop_eq_nil_iff.mp hdrop2
      rw [Int.toNat_natCast] at henough
      omega
    | cons dummy rest =>
      obtain ⟨sigs, rfl, rfl⟩ := exists_take_of_drop hdrop2
      change (checkArguments _ _ _ _ _ _ (storage (multisigStack keysCount keys sigsCount sigs dummy
        rest)) _ _ _ _ _).result >>= _ = _
      rw [checkArguments_result _ _ _ _ _ _ (by omega) (by omega) (by omega) (by omega)]
      simp only [Int.toNat_natCast, List.take_left, List.drop_left]
      exact (pair_embed _ _).trans (by simp only [multisigOutcome, bind_assoc])

end Multisig

section Matching

variable {crypto : Crypto} {flags : EvalFlags} {checker : SignatureChecker}
  {sigversion : SigVersion} {keys sigs : List Bytes} {scriptCode : CScript} {e : ScriptError}

/-- The checker accepts the signature with the key. -/
def Accepts (checker : SignatureChecker) (sigversion : SigVersion) (scriptCode : CScript)
    (vchSig vchPubKey : Bytes) : Prop :=
  checker.checkSig vchSig vchPubKey scriptCode sigversion = true

/-- The script code with all the signatures dropped, in base scripts. -/
def codeWithout (sigversion : SigVersion) (scriptCode : CScript) (sigs : List Bytes) : CScript :=
  match sigversion with
  | .base => sigs.foldl (fun code vchSig => (findAndDelete code (pushBytes vchSig)).1) scriptCode
  | .witnessV0 => scriptCode

/-- The errors a multisig with valid counts can end in, each with the flag that asks for it; the
last is the limit on operations. -/
def MultisigError (flags : EvalFlags) (sigversion : SigVersion) (nOpCount : Nat) :
    ScriptError → Prop
  | .sigDer => flags.derSig ∨ flags.lowS ∨ flags.strictEnc
  | .sigHighS => flags.lowS
  | .sigHashtype => flags.strictEnc
  | .pubkeyType => flags.strictEnc
  | .witnessPubkeyType => flags.witnessPubkeyType ∧ sigversion = .witnessV0
  | .sigFindAndDelete => flags.constScriptCode ∧ sigversion = .base
  | .sigNullFail => flags.nullFail
  | .sigNullDummy => flags.nullDummy
  | .opCount => maxOpsPerScript < nOpCount
  | _ => False

variable {nOpCount : Nat}

theorem checkSignatureEncoding_ends (vchSig : Bytes) :
    Ends (MultisigError flags sigversion nOpCount) (checkSignatureEncoding crypto flags vchSig)
      fun _ => True := by
  unfold checkSignatureEncoding
  split
  · trivial
  · split
    next hder => exact hder.1
    next =>
      have hhashtype : Ends (MultisigError flags sigversion nOpCount)
          (rejectIf (flags.strictEnc ∧ ¬ isDefinedHashtypeSignature vchSig) .sigHashtype)
          fun _ => True :=
        (Ends.rejectIf fun h => h.1).mono fun _ _ => trivial
      split
      next hlowS =>
        have hlow : Ends (MultisigError flags sigversion nOpCount) (isLowDERSignature crypto vchSig)
            fun _ => True := by
          unfold isLowDERSignature
          refine (Ends.rejectIf fun _ => .inr (.inl hlowS)).bind fun _ _ => ?_
          refine Ends.mono (Ends.rejectIf ?_) fun _ _ => trivial
          exact fun _ => hlowS
        exact hlow.bind fun _ _ => hhashtype
      next => exact hhashtype

theorem checkPubKeyEncoding_ends (vchPubKey : Bytes) :
    Ends (MultisigError flags sigversion nOpCount) (checkPubKeyEncoding flags vchPubKey sigversion)
      fun _ => True := by
  refine (Ends.rejectIf fun h => h.1).bind fun _ _ => ?_
  exact (Ends.rejectIf fun h => ⟨h.1, h.2.1⟩).mono fun _ _ => trivial

theorem checkOneSig_ends (vchSig vchPubKey : Bytes) :
    Ends (MultisigError flags sigversion nOpCount)
      (checkOneSig crypto flags checker sigversion scriptCode vchSig vchPubKey)
      fun fOk => fOk = true ↔ Accepts checker sigversion scriptCode vchSig vchPubKey := by
  refine (checkSignatureEncoding_ends vchSig).bind fun _ _ => ?_
  refine (checkPubKeyEncoding_ends vchPubKey).bind fun _ _ => ?_
  exact Iff.rfl

theorem dropSignatures_ends (sigs : List Bytes) (scriptCode : CScript) :
    Ends (MultisigError flags sigversion nOpCount)
      (sigs.foldlM (dropSignature flags sigversion) scriptCode)
      fun code => code = codeWithout sigversion scriptCode sigs := by
  induction sigs generalizing scriptCode with
  | nil => cases sigversion <;> rfl
  | cons sig sigs ih =>
    rw [List.foldlM_cons]
    cases sigversion with
    | witnessV0 => exact ih scriptCode
    | base =>
      have hdrop : Ends (MultisigError flags .base nOpCount)
          (dropSignature flags .base scriptCode sig)
          fun code => code = (findAndDelete scriptCode (pushBytes sig)).1 :=
        (Ends.rejectIf fun h => ⟨h.2, rfl⟩).bind fun _ _ => rfl
      refine hdrop.bind fun code hcode => ?_
      rw [hcode]
      exact ih _

theorem checkMultiSigLoop_ends (keys sigs : List Bytes) :
    Ends (MultisigError flags sigversion nOpCount)
      (checkMultiSigLoop crypto flags checker sigversion scriptCode keys sigs)
      fun fSuccess => fSuccess = true ↔
        List.SublistForall₂ (Accepts checker sigversion scriptCode) sigs keys := by
  induction keys generalizing sigs with
  | nil =>
    cases sigs with
    | nil => exact ⟨fun _ => .nil, fun _ => rfl⟩
    | cons sig sigs => exact ⟨nofun, nofun⟩
  | cons key keys ih =>
    cases sigs with
    | nil => exact ⟨fun _ => .nil, fun _ => rfl⟩
    | cons sig sigs =>
      refine (checkOneSig_ends sig key).bind fun fOk hfOk => ?_
      -- the signatures that are left after this key have a matching exactly if all had one
      obtain ⟨left, hleft, hiff⟩ : ∃ left, (if fOk then sigs else sig :: sigs) = left ∧
          (List.SublistForall₂ (Accepts checker sigversion scriptCode) (sig :: sigs) (key :: keys) ↔
            List.SublistForall₂ (Accepts checker sigversion scriptCode) left keys) := by
        cases fOk with
        | true => exact ⟨sigs, rfl, sublistForall₂_cons_cons_of_rel (hfOk.mp rfl)⟩
        | false =>
          exact ⟨sig :: sigs, rfl, sublistForall₂_cons_cons_of_not_rel fun h =>
            Bool.false_ne_true (hfOk.mpr h)⟩
      simp only [hleft, hiff]
      split
      next hfew =>
        refine ⟨nofun, fun h => ?_⟩
        exact absurd (SublistForall₂.length_le h) (by omega)
      next => exact ih left

theorem multisigArguments_ends (dummy : Bytes) (rest : List Bytes) (pbegincodehash : CScript) :
    Ends (MultisigError flags sigversion nOpCount)
      (multisigOutcome crypto flags checker sigversion false pbegincodehash keys sigs dummy rest)
      fun stack => ∃ fSuccess : Bool, stack = vchOfBool fSuccess :: rest ∧
        (fSuccess = true ↔ List.SublistForall₂
          (Accepts checker sigversion (codeWithout sigversion pbegincodehash sigs)) sigs keys) := by
  refine (dropSignatures_ends sigs pbegincodehash).bind fun code hcode => ?_
  refine (checkMultiSigLoop_ends keys sigs).bind fun fSuccess hsuccess => ?_
  refine (Ends.rejectIf fun h => h.2.1).bind fun _ _ => ?_
  refine (Ends.rejectIf fun h => h.1).bind fun _ _ => ?_
  exact ⟨fSuccess, rfl, hcode ▸ hsuccess⟩

theorem scriptNumGetInt_natCast {n : Nat} (hn : n ≤ maxPubkeysPerMultisig) :
    scriptNumGetInt n = n := by
  simp only [scriptNumGetInt, maxPubkeysPerMultisig] at hn ⊢
  omega

theorem execCheckMultiSig_opCount (verify : Bool) (pbegincodehash : CScript) (keysCount : Bytes)
    (rest : List Bytes) {n : Nat} (hkeysCount : operand flags keysCount = .ok n)
    (hmax : n ≤ maxPubkeysPerMultisig) (hops : maxOpsPerScript < nOpCount + n) :
    Verium.execCheckMultiSig crypto flags checker sigversion verify pbegincodehash nOpCount
      (keysCount :: rest) = .error .opCount := by
  have hrange : ¬ ((n : Int) < 0 ∨ (maxPubkeysPerMultisig : Int) < n) := by omega
  simp only [Verium.execCheckMultiSig]
  change (scriptNumGetInt <$> operand flags keysCount) >>= _ = _
  rw [hkeysCount, Except.map_ok, ok_bind, scriptNumGetInt_natCast hmax, rejectIf_of_not hrange,
    ok_bind, Int.toNat_natCast, rejectIf, if_pos hops]
  rfl

theorem execCheckMultiSig_layout (verify : Bool) (pbegincodehash : CScript)
    (keysCount sigsCount dummy : Bytes) (rest : List Bytes)
    (hkeysCount : operand flags keysCount = .ok keys.length)
    (hsigsCount : operand flags sigsCount = .ok sigs.length)
    (hle : sigs.length ≤ keys.length) (hmax : keys.length ≤ maxPubkeysPerMultisig)
    (hops : nOpCount + keys.length ≤ maxOpsPerScript) :
    Verium.execCheckMultiSig crypto flags checker sigversion verify pbegincodehash nOpCount
      (multisigStack keysCount keys sigsCount sigs dummy rest) =
      multisigOutcome crypto flags checker sigversion verify pbegincodehash keys sigs dummy rest >>=
        fun stack => pure (nOpCount + keys.length, stack) := by
  have hrange : ¬ ((keys.length : Int) < 0 ∨ (maxPubkeysPerMultisig : Int) < keys.length) := by
    omega
  have hrange' : ¬ ((sigs.length : Int) < 0 ∨ (keys.length : Int) < sigs.length) := by omega
  have henough : ¬ (sigs ++ dummy :: rest).length < sigs.length + 1 := by simp
  simp only [Verium.execCheckMultiSig, multisigStack]
  change (scriptNumGetInt <$> operand flags keysCount) >>= _ = _
  rw [hkeysCount, Except.map_ok, ok_bind, scriptNumGetInt_natCast hmax, rejectIf_of_not hrange,
    ok_bind, Int.toNat_natCast, rejectIf_of_not (not_lt.mpr hops), ok_bind, List.drop_left,
    List.take_left]
  change (scriptNumGetInt <$> operand flags sigsCount) >>= _ = _
  rw [hsigsCount, Except.map_ok, ok_bind, scriptNumGetInt_natCast (hle.trans hmax),
    rejectIf_of_not hrange', ok_bind, Int.toNat_natCast, rejectIf_of_not henough, ok_bind,
    List.drop_left, List.take_left]
  simp only [multisigOutcome, bind_assoc]

/-- `OP_CHECKMULTISIG` on a stack with valid counts. Unless a flag, or the limit on operations,
makes it fail, it replaces its `m + n + 3` arguments by whether the signatures can be assigned to
keys that accept them, in the same order and no key twice. -/
theorem execCheckMultiSig_matching (crypto : Crypto) (flags : EvalFlags)
    (checker : SignatureChecker) (sigversion : SigVersion) (pbegincodehash : CScript)
    (nOpCount : Nat) (keysCount sigsCount dummy : Bytes) (keys sigs rest : List Bytes)
    (hkeysCount : operand flags keysCount = .ok keys.length)
    (hsigsCount : operand flags sigsCount = .ok sigs.length)
    (hle : sigs.length ≤ keys.length) (hmax : keys.length ≤ maxPubkeysPerMultisig) :
    let stack := multisigStack keysCount keys sigsCount sigs dummy rest
    let run := execCheckMultiSig crypto flags checker sigversion false pbegincodehash nOpCount
      (storage stack)
    (∃ e, MultisigError flags sigversion (nOpCount + keys.length) e ∧
      run.result = .error (.script e)) ∨
    ∃ fSuccess : Bool,
      run.result = .ok (nOpCount + keys.length,
        storage (vchOfBool fSuccess :: stack.drop (sigs.length + keys.length + 3))) ∧
      (fSuccess = true ↔ ∃ f : Fin sigs.length ↪o Fin keys.length, ∀ i,
        checker.checkSig (sigs.get i) (keys.get (f i))
          (codeWithout sigversion pbegincodehash sigs) sigversion = true) := by
  intro stack run
  have hrest : stack.drop (sigs.length + keys.length + 3) = rest := by
    have hlayout : stack = (keysCount :: (keys ++ sigsCount :: (sigs ++ [dummy]))) ++ rest := by
      simp [stack, multisigStack]
    have hlen : (keysCount :: (keys ++ sigsCount :: (sigs ++ [dummy]))).length =
        sigs.length + keys.length + 3 := by
      simp
      omega
    rw [hlayout, ← hlen, List.drop_left]
  have hrun : run.result = _ :=
    execCheckMultiSig_result false pbegincodehash nOpCount stack
  rw [hrun, hrest]
  by_cases hops : nOpCount + keys.length ≤ maxOpsPerScript
  · rw [execCheckMultiSig_layout false pbegincodehash keysCount sigsCount dummy rest hkeysCount
      hsigsCount hle hmax hops]
    rcases (multisigArguments_ends dummy rest pbegincodehash).cases with
      ⟨_, hargs, fSuccess, rfl, hsuccess⟩ | ⟨e, he, hargs⟩
    · refine .inr ⟨fSuccess, by rw [hargs]; rfl, ?_⟩
      rw [hsuccess, sublistForall₂_iff_exists_orderEmbedding]
      rfl
    · exact .inl ⟨e, he, by rw [hargs]; rfl⟩
  · refine .inl ⟨.opCount, not_le.mp hops, ?_⟩
    exact congrArg _ (execCheckMultiSig_opCount false pbegincodehash keysCount
      (keys ++ sigsCount :: (sigs ++ dummy :: rest)) hkeysCount hmax (not_le.mp hops))

/-- A checker that accepts a signature with the key of the same bytes. -/
def sameBytesChecker : SignatureChecker where
  checkSig vchSig vchPubKey _ _ := vchSig == vchPubKey
  checkLockTime _ := false
  checkSequence _ := false

/-- One signature, for the second of two keys. -/
theorem secondKey_matching :
    let run := execCheckMultiSig sampleCrypto (evalFlags scriptVerifyNone)
      sameBytesChecker .base false
      [] 0 (storage (multisigStack [2] [[7], [8]] [1] [[8]] [] []))
    (∃ e, MultisigError (evalFlags scriptVerifyNone) .base 2 e ∧ run.result = .error (.script e)) ∨
    ∃ fSuccess : Bool, run.result = .ok (2, storage [vchOfBool fSuccess]) ∧
      (fSuccess = true ↔ ∃ f : Fin 1 ↪o Fin 2, ∀ i,
        sameBytesChecker.checkSig ([[8]].get i) ([[7], [8]].get (f i))
          (codeWithout .base [] [[8]]) .base = true) :=
  execCheckMultiSig_matching sampleCrypto (evalFlags scriptVerifyNone) sameBytesChecker
    .base [] 0 [2] [1]
    [] [[7], [8]] [[8]] [] rfl rfl (by decide) (by decide)

end Matching

end Verium.Machine
