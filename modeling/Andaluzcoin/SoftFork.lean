import Andaluzcoin.VerifyScript

/-!
# Flags are soft forks

A spend that is accepted with some verification flags is accepted with fewer of them. In the
interpreter every flag only adds a way to fail, so the two runs have the same states as long as
the stricter one goes on.
-/

namespace SoftFork

open Transaction Script Outcome Interpreter VerifyScript Bool

variable {F G : ScriptVerifyFlags}

/-- What a run yields with the flags `G`, it yields with the flags `F`. -/
abbrev Keeps {α : Type} (F G : ScriptVerifyFlags) (run : ScriptVerifyFlags → Eval α) : Prop :=
  Admits (run F) (run G)

/-- A failure under fewer flags is a failure under more of them. -/
lemma flag_and (sub : F ≤ G) (flag : ScriptVerifyFlag) (b : Bool) :
  (F flag && b) = true → (G flag && b) = true := by
  intro hb
  rw [and_eq_true] at hb ⊢
  exact ⟨sub flag hb.1, hb.2⟩

lemma and_flag_and (sub : F ≤ G) (flag : ScriptVerifyFlag) (a b : Bool) :
  (a && F flag && b) = true → (a && G flag && b) = true := by
  rw [and_comm a, and_comm a, Bool.and_assoc, Bool.and_assoc]
  exact flag_and sub flag (a && b)

/-- A part that only one flag turns on and that yields what is there without it. -/
lemma admits_of_flag {α : Type} {f g : Bool} {x y z : Eval α} (on : f ≤ g) (hs : Admits z y)
  (ha : Admits x y) : Admits (if f then x else z) (if g then y else z) := by
  cases f with
  | true =>
    obtain rfl : g = true := on rfl
    exact ha
  | false =>
    cases g with
    | true => exact hs
    | false => exact .refl z

section
variable (crypto : Crypto) (sub : F ≤ G)
include sub

lemma checkSignatureEncoding_admits (vchSig : Bytes) :
  Keeps F G fun flags => checkSignatureEncoding crypto flags vchSig := by
  refine .ite (fun _ => .refl _) fun _ => ?_
  refine .bind (admits_failIf _ ?_) fun _ => ?_
  · simp only [and_eq_true, or_eq_true]
    rintro ⟨(der | low) | strict, bad⟩
    · exact ⟨.inl (.inl (sub _ der)), bad⟩
    · exact ⟨.inl (.inr (sub _ low)), bad⟩
    · exact ⟨.inr (sub _ strict), bad⟩
  · refine .bind (admits_failIf _ (flag_and sub _ _)) fun _ => ?_
    exact admits_failIf _ (flag_and sub _ _)

lemma checkPubKeyEncoding_admits (vchPubKey : Bytes) (sv : SigVersion) :
  Keeps F G fun flags => checkPubKeyEncoding flags vchPubKey sv := by
  refine .bind (admits_failIf _ (flag_and sub _ _)) fun _ => ?_
  refine admits_failIf _ ?_
  rw [Bool.and_assoc, Bool.and_assoc]
  exact flag_and sub _ _

lemma scriptNum_admits (vch : Bytes) (nMaxNumSize : ℕ) :
  Keeps F G fun flags => scriptNum flags vch nMaxNumSize := by
  refine .bind (.refl _) fun _ => ?_
  exact .bind (admits_failIf _ (flag_and sub _ _)) fun _ => .refl _

lemma dropSignatures_admits (sv : SigVersion) (sigs : List Bytes) (scriptCode : CScript) :
  Keeps F G fun flags => dropSignatures flags sv sigs scriptCode := by
  induction sigs generalizing scriptCode with
  | nil => exact .refl _
  | cons vchSig rest ih =>
    refine .ite (fun _ => ?_) fun _ => ih _
    refine .bind (admits_failIf _ ?_) fun _ => ih _
    rw [Bool.and_comm, and_comm _ (G _)]
    exact flag_and sub _ _

end

section
variable (crypto : Crypto) (c : SignatureChecker) (sv : SigVersion) (sub : F ≤ G)
include sub

lemma checkTapscriptKey_admits (sig pubkey : Bytes) (execdata : ScriptExecutionData) :
  Keeps F G fun flags => checkTapscriptKey c sv flags sig pubkey execdata := by
  refine .ite (fun _ => .refl _) fun _ => ?_
  exact .ite (fun _ => .refl _) fun _ => admits_failIf _ (sub _)

lemma evalChecksig_admits (sig pubkey : Bytes) (s : ScriptState) :
  Keeps F G fun flags => evalChecksig crypto c sv flags sig pubkey s := by
  have preTapscript : Keeps F G fun flags =>
    evalChecksigPreTapscript crypto c sv flags sig pubkey s.codeHash := by
    refine .bind (dropSignatures_admits sub _ _ _) fun _ => ?_
    refine .bind (checkSignatureEncoding_admits crypto sub _) fun _ => ?_
    refine .bind (checkPubKeyEncoding_admits sub _ _) fun _ => ?_
    exact .bind (admits_failIf _ (and_flag_and sub _ _ _)) fun _ => .refl _
  have tapscript : Keeps F G fun flags =>
    evalChecksigTapscript c sv flags sig pubkey s.execdata := by
    refine .bind (.refl _) fun _ => ?_
    exact .bind (checkTapscriptKey_admits c sv sub _ _ _) fun _ => .refl _
  cases sv with
  | base => exact .bind preTapscript fun _ => .refl _
  | witnessV0 => exact .bind preTapscript fun _ => .refl _
  | tapscript => exact .bind tapscript fun _ => .refl _
  | taproot => exact .refl _

lemma matchSignatures_admits (scriptCode : CScript) (sigs keys : List Bytes) :
  Keeps F G fun flags => matchSignatures crypto c sv flags scriptCode sigs keys := by
  induction keys generalizing sigs with
  | nil =>
    cases sigs with
    | nil => exact .refl _
    | cons sig sigs => exact .refl _
  | cons key keys ih =>
    cases sigs with
    | nil => exact .refl _
    | cons sig sigs =>
      refine .bind (checkSignatureEncoding_admits crypto sub _) fun _ => ?_
      refine .bind (checkPubKeyEncoding_admits sub _ _) fun _ => ?_
      exact .ite (fun _ => .refl _) fun _ => ih _

/-- A time lock only checks its operand, and does nothing without its flag. -/
lemma timeLock_admits (flag : ScriptVerifyFlag) (unsatisfied : ℤ → Bool) (s : ScriptState) :
  let run (flags : ScriptVerifyFlags) : Eval ScriptState :=
    if flags flag then
      match s.stack with
      | [] => .error .invalidStackOperation
      | top :: _ => do
        let n ← scriptNum flags top 5
        failIf (n < 0) .negativeLockTime
        failIf (unsatisfied n) .unsatisfiedLockTime
        .ok s
    else .ok s
  Keeps F G run := by
  refine admits_of_flag (sub flag) (fun s' ok => ?_) ?_
  · cases stack : s.stack with
    | nil =>
      rw [stack] at ok
      cases ok
    | cons top below =>
      rw [stack] at ok
      obtain ⟨_, -, ok⟩ := bind_eq_ok.mp ok
      obtain ⟨_, -, ok⟩ := bind_eq_ok.mp ok
      obtain ⟨_, -, ok⟩ := bind_eq_ok.mp ok
      exact ok
  · cases s.stack with
    | nil => exact .refl _
    | cons top below => exact .bind (scriptNum_admits sub _ _) fun _ => .refl _

lemma execCheckMultisig_admits (verify : Bool) (s : ScriptState) :
  Keeps F G fun flags => execCheckMultisig crypto c sv flags verify s := by
  have read : Keeps F G fun flags => readMultisig flags s := by
    unfold readMultisig
    cases s.stack with
    | nil => exact .refl _
    | cons top below =>
      refine .bind (scriptNum_admits sub _ _) fun _ => ?_
      refine .bind (.refl _) fun _ => ?_
      refine .bind (.refl _) fun _ => ?_
      split
      · exact .refl _
      · refine .bind (scriptNum_admits sub _ _) fun _ => ?_
        exact .refl _
  refine .ite (fun _ => .refl _) fun _ => ?_
  refine .bind read fun ⟨keys, sigs, below, s⟩ => ?_
  refine .bind (dropSignatures_admits sub _ _ _) fun _ => ?_
  refine .bind (matchSignatures_admits crypto c sv sub _ _ _) fun _ => ?_
  refine .bind (admits_failIf _ (and_flag_and sub _ _ _)) fun _ => ?_
  cases below with
  | nil => exact .refl _
  | cons dummy rest => exact .bind (admits_failIf _ (flag_and sub _ _)) fun _ => .refl _

lemma execIf_admits (negated : Bool) (s : ScriptState) :
  Keeps F G fun flags => execIf sv flags negated s := by
  refine .ite (fun _ => ?_) fun _ => .refl _
  cases s.stack with
  | nil => exact .refl _
  | cons vch rest =>
    refine .bind ?_ fun _ => .refl _
    exact .bind (.refl _) fun _ => admits_failIf _ (and_flag_and sub _ _ _)

lemma execPickRoll_admits (roll : Bool) (s : ScriptState) :
  Keeps F G fun flags => execPickRoll flags roll s := by
  unfold execPickRoll
  split
  · exact .bind (scriptNum_admits sub _ _) fun _ => .refl _
  · exact .refl _

lemma execUnary_admits (op : Opcode) (s : ScriptState) :
  Keeps F G fun flags => execUnary flags op s := by
  unfold execUnary
  split
  · exact .refl _
  · exact .bind (scriptNum_admits sub _ _) fun _ => .refl _

lemma execBinary_admits (op : Opcode) (s : ScriptState) :
  Keeps F G fun flags => execBinary flags op s := by
  unfold execBinary
  split
  · refine .bind (scriptNum_admits sub _ _) fun _ => ?_
    exact .bind (scriptNum_admits sub _ _) fun _ => .refl _
  · exact .refl _

lemma execWithin_admits (s : ScriptState) : Keeps F G fun flags => execWithin flags s := by
  unfold execWithin
  split
  · refine .bind (scriptNum_admits sub _ _) fun _ => ?_
    refine .bind (scriptNum_admits sub _ _) fun _ => ?_
    exact .bind (scriptNum_admits sub _ _) fun _ => .refl _
  · exact .refl _

lemma execCheckSig_admits (verify : Bool) (s : ScriptState) :
  Keeps F G fun flags => execCheckSig crypto c sv flags verify s := by
  unfold execCheckSig
  split
  · exact .bind (evalChecksig_admits crypto c sv sub _ _ _) fun _ => .refl _
  · exact .refl _

lemma execCheckSigAdd_admits (s : ScriptState) :
  Keeps F G fun flags => execCheckSigAdd crypto c sv flags s := by
  refine .ite (fun _ => .refl _) fun _ => ?_
  split
  · refine .bind (scriptNum_admits sub _ _) fun _ => ?_
    exact .bind (evalChecksig_admits crypto c sv sub _ _ _) fun _ => .refl _
  · exact .refl _

lemma execOp_admits (op : Opcode) (rest : CScript) (s : ScriptState) :
  Keeps F G fun flags => execOp crypto c sv flags op rest s := by
  cases op
  case opCheckLockTimeVerify => exact timeLock_admits sub _ _ s
  case opCheckSequenceVerify => exact timeLock_admits sub _ _ s
  case opIf => exact execIf_admits sv sub false s
  case opNotIf => exact execIf_admits sv sub true s
  case opPick => exact execPickRoll_admits sub false s
  case opRoll => exact execPickRoll_admits sub true s
  case opWithin => exact execWithin_admits sub s
  case opCheckSig => exact execCheckSig_admits crypto c sv sub false s
  case opCheckSigVerify => exact execCheckSig_admits crypto c sv sub true s
  case opCheckSigAdd => exact execCheckSigAdd_admits crypto c sv sub s
  case opCheckMultisig => exact execCheckMultisig_admits crypto c sv sub false s
  case opCheckMultisigVerify => exact execCheckMultisig_admits crypto c sv sub true s
  case op1Add | op1Sub | opNegate | opAbs | opNot | op0NotEqual => exact execUnary_admits sub _ s
  case opAdd | opSub | opBoolAnd | opBoolOr | opNumEqual | opNumEqualVerify | opNumNotEqual |
      opLessThan | opGreaterThan | opLessThanOrEqual | opGreaterThanOrEqual | opMin | opMax =>
    exact execBinary_admits sub _ s
  case opNop1 | opNop4 | opNop5 | opNop6 | opNop7 | opNop8 | opNop9 | opNop10 =>
    exact .bind (admits_failIf _ (sub _)) fun _ => .refl _
  -- the opcodes without flags
  all_goals exact .refl _

lemma evalOp_admits (op : Opcode) (vchPushValue : Bytes) (rest : CScript) (s : ScriptState) :
  Keeps F G fun flags => evalOp crypto c sv flags op vchPushValue rest s := by
  have dispatched : ∀ s, Keeps F G fun flags =>
    dispatch crypto c sv flags op vchPushValue rest s := by
    intro s
    refine .ite (fun _ => ?_) fun _ => ?_
    · exact .bind (admits_failIf _ (flag_and sub _ _)) fun _ => .refl _
    · exact .ite (fun _ => execOp_admits crypto c sv sub op rest s) fun _ => .refl _
  refine .bind (.refl _) fun _ => ?_
  refine .bind (.refl _) fun s => ?_
  refine .bind (.refl _) fun _ => ?_
  refine .bind (admits_failIf _ ?_) fun _ => ?_
  · simp only [and_eq_true]
    rintro ⟨hh, constant⟩
    exact ⟨hh, sub _ constant⟩
  · exact .bind (dispatched s) fun _ => .refl _

/-- By induction on the rounds: as long as the stricter run goes on, the states agree. -/
lemma evalLoop_admits (fuel : ℕ) (script : CScript) (s : ScriptState) :
  Keeps F G fun flags => evalLoop crypto c sv flags fuel script s := by
  induction fuel generalizing script s with
  | zero =>
    cases script with
    | nil => exact .refl _
    | cons b bytes => exact .refl _
  | succ fuel ih =>
    cases script with
    | nil => exact .refl _
    | cons b bytes =>
      unfold evalLoop
      split
      · exact .refl _
      · exact .bind (evalOp_admits crypto c sv sub _ _ _ _) fun _ => ih _ _

lemma evalScript_admits (stack : List Bytes) (script : CScript) (execdata : ScriptExecutionData) :
  Keeps F G fun flags => evalScript crypto c sv flags stack script execdata := by
  refine .bind (.refl _) fun _ => ?_
  refine .bind (.refl _) fun _ => ?_
  exact .bind (evalLoop_admits crypto c sv sub _ _ _) fun _ => .refl _

end

section
variable (crypto : TaprootCrypto) (c : SignatureChecker)

variable (sub : F ≤ G)
include sub

lemma executeWitnessScript_admits (stack : List Bytes) (execScript : CScript)
  (sv : SigVersion) (execdata : ScriptExecutionData) :
  Keeps F G fun flags => executeWitnessScript crypto c flags stack execScript sv execdata := by
  have run : Keeps F G fun flags =>
    runWitnessScript crypto c flags stack execScript sv execdata := by
    refine .bind (.refl _) fun _ => ?_
    exact .bind (evalScript_admits crypto.toCrypto c sv sub _ _ _) fun _ => .refl _
  refine .ite (fun _ => ?_) fun _ => run
  split
  · exact .refl _
  · exact admits_failIf _ (sub _)
  · exact .bind (.refl _) fun _ => run

lemma verifyTaproot_admits (program : Bytes) (witness : List Bytes) :
  Keeps F G fun flags => verifyTaproot crypto c flags program witness := by
  have script : ∀ stack execdata, Keeps F G fun flags =>
    verifyTaprootScript crypto c flags program witness stack execdata := by
    intro stack execdata
    unfold verifyTaprootScript
    split
    · refine .ite (fun _ => .refl _) fun _ => ?_
      refine .ite (fun _ => .refl _) fun _ => ?_
      exact .ite (fun _ => executeWitnessScript_admits crypto c sub _ _ _ _)
        fun _ => admits_failIf _ (sub _)
    · exact .refl _
  unfold verifyTaproot
  split
  · exact .refl _
  dsimp only
  split
  · exact .refl _
  · exact script _ _

lemma verifyWitnessProgram_admits (witness : List Bytes) (witversion : ℕ)
  (program : Bytes) (isP2sh : Bool) : Keeps F G fun flags =>
    verifyWitnessProgram crypto c flags witness witversion program isP2sh := by
  refine .ite (fun _ => ?_) fun _ => ?_
  · refine .ite (fun _ => ?_) fun _ => .ite (fun _ => ?_) fun _ => .refl _
    · split
      · exact .refl _
      · exact .ite (fun _ => .refl _)
          fun _ => executeWitnessScript_admits crypto c sub _ _ _ _
    · exact .ite (fun _ => .refl _) fun _ => executeWitnessScript_admits crypto c sub _ _ _ _
  · refine .ite (fun _ => ?_) fun _ => ?_
    · exact admits_of_flag (sub _) (fun _ _ => rfl) (verifyTaproot_admits crypto c sub _ _)
    · exact .ite (fun _ => .refl _) fun _ => admits_failIf _ (sub _)

lemma evalBase_admits (stack : List Bytes) (script : CScript) :
  Keeps F G fun flags => evalBase crypto c flags stack script :=
  (evalScript_admits crypto.toCrypto c .base sub stack script .new).map Prod.fst

end

/-- `CLEANSTACK` comes with `P2SH` and `WITNESS`, and `WITNESS` with `P2SH`. -/
def Permitted (flags : ScriptVerifyFlags) : Prop :=
  (flags .cleanStack = true → flags .p2sh = true ∧ flags .witness = true) ∧
    (flags .witness = true → flags .p2sh = true)

section
variable (crypto : TaprootCrypto) (c : SignatureChecker) {result : Bool × List Bytes}
  {scriptSig : CScript} {stackCopy witness : List Bytes}

/-- With witnesses on both sides the part of a program is the same but for the flags. -/
lemma verifyProgramOf_admits (sub : F ≤ G) (on : F .witness = true)
  (scriptSig expected script : CScript) (witness : List Bytes) (isP2sh : Bool)
  (malleated : ScriptError) (stack : List Bytes) : Keeps F G fun flags =>
    verifyProgramOf crypto c flags scriptSig expected script witness isP2sh malleated stack := by
  simp only [Keeps, verifyProgramOf, on, sub .witness on, if_true]
  split
  · exact .refl _
  · refine .bind (.refl _) fun _ => ?_
    exact .bind (verifyWitnessProgram_admits crypto c sub _ _ _ _) fun _ => .refl _

lemma verifyProgramOf_off {flags : ScriptVerifyFlags} (off : flags .witness = false)
  (scriptSig expected script : CScript) (witness : List Bytes) (isP2sh : Bool)
  (malleated : ScriptError) (stack : List Bytes) :
  verifyProgramOf crypto c flags scriptSig expected script witness isP2sh malleated stack
    = .ok (false, stack) := by
  simp [verifyProgramOf, off]

lemma verifyP2sh_admits (sub : F ≤ G) (on : F .witness = true) (scriptSig : CScript)
  (witness stackCopy : List Bytes) :
  Keeps F G fun flags => verifyP2sh crypto c flags scriptSig witness stackCopy := by
  refine .bind (.refl _) fun _ => ?_
  cases stackCopy with
  | nil => exact .refl _
  | cons pubKey2 stack =>
    refine .bind (evalBase_admits crypto c sub _ _) fun _ => ?_
    refine .bind (.refl _) fun _ => ?_
    exact verifyProgramOf_admits crypto c sub on _ _ _ _ _ _ _

/-- Without witnesses the script of a hash is run all the same. -/
lemma verifyP2sh_off (sub : F ≤ G) (off : F .witness = false)
  (ok : verifyP2sh crypto c G scriptSig witness stackCopy = .ok result) :
  ∃ stack, verifyP2sh crypto c F scriptSig witness stackCopy = .ok (false, stack) := by
  obtain ⟨_, pushOnly, ok⟩ := bind_eq_ok.mp ok
  cases stackCopy with
  | nil => cases ok
  | cons pubKey2 below =>
    obtain ⟨stack, he, ok⟩ := bind_eq_ok.mp ok
    obtain ⟨_, isTrue, -⟩ := bind_eq_ok.mp ok
    refine ⟨stack, bind_eq_ok.mpr ⟨_, pushOnly, bind_eq_ok.mpr ⟨stack, ?_, ?_⟩⟩⟩
    · exact evalBase_admits crypto c sub _ _ _ he
    · exact bind_eq_ok.mpr ⟨_, isTrue, verifyProgramOf_off crypto c off _ _ _ _ _ _ _⟩

lemma verifyNested_off (sub : F ≤ G) (off : F .witness = false) {scriptPubKey : CScript}
  {stack' : List Bytes} (stack : List Bytes)
  (ok : verifyNested crypto c G scriptSig scriptPubKey witness stackCopy stack' = .ok result) :
  ∃ stack'', verifyNested crypto c F scriptSig scriptPubKey witness stackCopy stack
    = .ok (false, stack'') := by
  unfold verifyNested at ok ⊢
  by_cases nested : (F .p2sh && isPayToScriptHash scriptPubKey) = true
  · rw [if_pos nested]
    rw [if_pos (flag_and sub _ _ nested)] at ok
    exact verifyP2sh_off crypto c sub off ok
  · rw [if_neg nested]
    exact ⟨stack, rfl⟩

end

/-- What is accepted with the flags `G` is accepted with every subset `F` of them, as long as
both sets are among those the source permits. -/
theorem verifyScript_softFork (crypto : TaprootCrypto) (checker : SignatureChecker)
  (F G : ScriptVerifyFlags) (sub : F ≤ G) (permittedF : Permitted F) (permittedG : Permitted G)
  (scriptSig scriptPubKey : CScript) (witness : List Bytes)
  (accepted : verifyScript crypto checker G scriptSig scriptPubKey witness = .ok ()) :
  verifyScript crypto checker F scriptSig scriptPubKey witness = .ok () := by
  obtain ⟨_, pushOnly, ok⟩ := bind_eq_ok.mp accepted
  obtain ⟨stackCopy, evaluatedSig, ok⟩ := bind_eq_ok.mp ok
  obtain ⟨stack, he, ok⟩ := bind_eq_ok.mp ok
  obtain ⟨_, isTrue, ok⟩ := bind_eq_ok.mp ok
  obtain ⟨⟨bare, stack₁⟩, program, ok⟩ := bind_eq_ok.mp ok
  obtain ⟨⟨nested, stack₂⟩, script, ok⟩ := bind_eq_ok.mp ok
  obtain ⟨_, hc, expected⟩ := bind_eq_ok.mp ok
  have pushOnlyF := admits_failIf ScriptError.sigPushOnly (flag_and sub _ _) _ pushOnly
  have evaluatedSigF := evalBase_admits crypto checker sub _ _ _ evaluatedSig
  have evaluatedF := evalBase_admits crypto checker sub _ _ _ he
  cases on : F .witness with
  | true =>
    have p2sh : F .p2sh = true := permittedF.2 on
    have onG := sub .witness on
    have p2shG : G .p2sh = true := permittedG.2 onG
    have programF := verifyProgramOf_admits crypto checker sub on _ _ _ _ _ _ _ _ program
    have scriptF : verifyNested crypto checker F scriptSig scriptPubKey witness stackCopy stack₁
      = .ok (nested, stack₂) := by
      unfold verifyNested at script ⊢
      rw [p2shG] at script
      rw [p2sh]
      exact Admits.ite (fun _ => verifyP2sh_admits crypto checker sub on _ _ _)
        (fun _ => .refl _) _ script
    have cleanF : checkCleanStack F stack₂ = .ok () := by
      unfold checkCleanStack at hc ⊢
      cases cleanOn : F .cleanStack with
      | false => rfl
      | true =>
        rw [if_pos (sub .cleanStack cleanOn), p2shG, onG] at hc
        rw [if_pos rfl, p2sh, on]
        exact hc
    have expectedF : checkUnexpectedWitness F (bare || nested) witness = .ok () := by
      unfold checkUnexpectedWitness at expected ⊢
      rw [if_pos onG, p2shG] at expected
      rw [if_pos on, p2sh]
      exact expected
    simp only [verifyScript, pushOnlyF, evaluatedSigF, evaluatedF, isTrue, programF, scriptF,
      cleanF, bind, Except.bind, expectedF]
  | false =>
    have notClean : F .cleanStack = false := by
      rw [← Bool.not_eq_true]
      intro cleanOn
      rw [(permittedF.1 cleanOn).2] at on
      cases on
    have programF := verifyProgramOf_off crypto checker on scriptSig [] scriptPubKey witness false
      .witnessMalleated stack
    obtain ⟨stack₂, scriptF⟩ := verifyNested_off crypto checker sub on stack script
    simp only [verifyScript, pushOnlyF, evaluatedSigF, evaluatedF, isTrue, programF, scriptF,
      checkCleanStack, notClean, checkUnexpectedWitness, on, bind, Except.bind, Bool.false_eq_true,
      if_false]

/-- Hashes that are the same for all data. -/
def constantCrypto : TaprootCrypto where
  ripemd160 _ := List.replicate 20 1
  sha1 _ := List.replicate 20 1
  sha256 _ := List.replicate 32 1
  checkLowS _ := true
  annexHash _ := 0
  computeTapleafHash _ _ := 0
  computeTapbranchHash _ _ := 0
  checkTapTweak _ _ _ _ := true

/-- A script hash program of version 0 whose script is `OP_1`, with all flags and without any. -/
theorem verifyScript_softFork_witness_script :
  verifyScript constantCrypto .base (fun _ => true) [] (0 :: 32 :: List.replicate 32 1) [[0x51]]
    = .ok () ∧
  verifyScript constantCrypto .base (fun _ => false) [] (0 :: 32 :: List.replicate 32 1) [[0x51]]
    = .ok () := by
  have accepted : verifyScript constantCrypto .base (fun _ => true) []
    (0 :: 32 :: List.replicate 32 1) [[0x51]] = .ok () := by decide +kernel
  refine ⟨accepted, verifyScript_softFork constantCrypto .base (fun _ => false) (fun _ => true)
    ?_ ?_ ?_ _ _ _ accepted⟩
  · intro flag off
    cases off
  · exact ⟨fun on => (by cases on), fun on => (by cases on)⟩
  · exact ⟨fun _ => ⟨rfl, rfl⟩, fun _ => rfl⟩

end SoftFork
