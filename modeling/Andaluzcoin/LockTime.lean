import Andaluzcoin.ChainIndex
import Andaluzcoin.Interpreter

/-!
# Lock times

`CheckLockTime` and `CheckSequence` of the transaction signature checker, and `IsFinalTx` and the
relative lock times of `consensus/tx_verify.cpp`. A script that runs one of the two opcodes only
compares its operand with a field of the transaction. That the operand itself is obeyed follows
from the rules for the block the transaction is in.
-/

namespace LockTime

open Transaction Script Interpreter Outcome ChainIndex Option

def locktimeThreshold : ℕ := 500000000
def locktimeVerifySequence : ℕ := 1
def sequenceFinal : ℕ := 0xffffffff
def sequenceLocktimeDisableFlag : ℕ := 1 <<< 31
def sequenceLocktimeTypeFlag : ℕ := 1 <<< 22
def sequenceLocktimeMask : ℕ := 0x0000ffff
def sequenceLocktimeGranularity : ℕ := 9

section
variable (tx : CTransaction)

def checkLockTime (nIn : Fin tx.vin.length) (nLockTime : ℤ) : Bool :=
  if ¬ ((tx.nLockTime < locktimeThreshold ∧ nLockTime < locktimeThreshold) ∨
      (tx.nLockTime ≥ locktimeThreshold ∧ nLockTime ≥ locktimeThreshold)) then false
  else if nLockTime > tx.nLockTime then false
  else if sequenceFinal = (tx.vin.get nIn).nSequence then false
  else true

/-- `nLockTimeMask`. -/
def lockTimeMask : ℕ := sequenceLocktimeTypeFlag ||| sequenceLocktimeMask

/-- The opcode has failed before for an operand below zero. -/
def checkSequence (nIn : Fin tx.vin.length) (nSequence : ℤ) : Bool :=
  let txToSequence := (tx.vin.get nIn).nSequence
  let txToSequenceMasked := txToSequence &&& lockTimeMask
  let nSequenceMasked := nSequence.toNat &&& lockTimeMask
  if tx.version < 2 then false
  else if txToSequence &&& sequenceLocktimeDisableFlag ≠ 0 then false
  else if ¬ ((txToSequenceMasked < sequenceLocktimeTypeFlag ∧
        nSequenceMasked < sequenceLocktimeTypeFlag) ∨
      (txToSequenceMasked ≥ sequenceLocktimeTypeFlag ∧
        nSequenceMasked ≥ sequenceLocktimeTypeFlag)) then false
  else if nSequenceMasked > txToSequenceMasked then false
  else true

/-- `GenericTransactionSignatureChecker`, with the checks of signatures of another one. -/
def transactionChecker (nIn : Fin tx.vin.length) (signatures : SignatureChecker) :
  SignatureChecker :=
  { signatures with checkLockTime := checkLockTime tx nIn, checkSequence := checkSequence tx nIn }

def isFinalTx (nBlockHeight nBlockTime : ℤ) : Bool :=
  if tx.nLockTime = 0 then true
  else if (tx.nLockTime : ℤ) <
      (if tx.nLockTime < locktimeThreshold then nBlockHeight else nBlockTime) then true
  else tx.vin.all fun txin => txin.nSequence == sequenceFinal

variable {B : Type*} (chain : BlockChain B)

/-- The last heights and times at which a transaction is not valid. -/
structure LockPair where
  nMinHeight : ℤ
  nMinTime : ℤ
  deriving DecidableEq

/-- The loop over the inputs, with the heights of the coins they spend, which it clears where they
do not matter. An ancestor that is missing ends the program. A last height that an `int` cannot
hold wraps around. -/
def sequenceLocksLoop (block : B) : List CTxIn → List ℤ → LockPair → Option (LockPair × List ℤ)
  | txin :: vin, nCoinHeight :: prevHeights, locks =>
    if txin.nSequence &&& sequenceLocktimeDisableFlag ≠ 0 then
      (sequenceLocksLoop block vin prevHeights locks).map fun r => (r.1, 0 :: r.2)
    else if txin.nSequence &&& sequenceLocktimeTypeFlag ≠ 0 then
      (chain.getAncestor block (max (nCoinHeight - 1) 0)).bind fun before =>
        let nCoinTime := chain.getMedianTimePast before
        let relative := (txin.nSequence &&& sequenceLocktimeMask) <<< sequenceLocktimeGranularity
        let locks := { locks with nMinTime := max locks.nMinTime (nCoinTime + relative - 1) }
        (sequenceLocksLoop block vin prevHeights locks).map fun r => (r.1, nCoinHeight :: r.2)
    else
      let relative := txin.nSequence &&& sequenceLocktimeMask
      let last := (nCoinHeight + relative - 1).bmod (2 ^ 32)
      let locks := { locks with nMinHeight := max locks.nMinHeight last }
      (sequenceLocksLoop block vin prevHeights locks).map fun r => (r.1, nCoinHeight :: r.2)
  | _, prevHeights, locks => some (locks, prevHeights)

def calculateSequenceLocks (flags : ℕ) (prevHeights : List ℤ) (block : B) :
  Option (LockPair × List ℤ) :=
  if prevHeights.length ≠ tx.vin.length then none
  else if ¬ (tx.version ≥ 2 ∧ flags &&& locktimeVerifySequence ≠ 0) then
    some (⟨-1, -1⟩, prevHeights)
  else sequenceLocksLoop chain block tx.vin prevHeights ⟨-1, -1⟩

/-- A block without a parent ends the program. -/
def evaluateSequenceLocks (block : B) (lockPair : LockPair) : Option Bool :=
  (chain.pprev block).map fun pprev =>
    let nBlockTime := chain.getMedianTimePast pprev
    !(lockPair.nMinHeight ≥ chain.nHeight block || lockPair.nMinTime ≥ nBlockTime)

/-- Whether the block is late enough, and the heights as the calculation leaves them. -/
def sequenceLocks (flags : ℕ) (prevHeights : List ℤ) (block : B) : Option (Bool × List ℤ) := do
  let (lockPair, prevHeights) ← calculateSequenceLocks tx chain flags prevHeights block
  let passes ← evaluateSequenceLocks chain block lockPair
  return (passes, prevHeights)

end

section
variable (crypto : Crypto) (checker : SignatureChecker) (sigversion : SigVersion)
  (flags : ScriptVerifyFlags)

/-- The run of a script from a state comes to the opcode in a branch that is taken, with the number
on top of the stack, and gets past it. -/
inductive Executed (op : Opcode) (n : ℤ) : CScript → ScriptState → Prop where
  | here {script rest : CScript} {data top : Bytes} {below : List Bytes} {s s' : ScriptState}
      (reads : getOp script = some (op, data, rest)) (taken : s.vfExec.allTrue = true)
      (stack : s.stack = top :: below) (operand : scriptNum flags top 5 = .ok n)
      (passes : evalOp crypto checker sigversion flags op data rest s = .ok s') :
      Executed op n script s
  | later {script rest : CScript} {op' : Opcode} {data : Bytes} {s s' : ScriptState}
      (reads : getOp script = some (op', data, rest))
      (passes : evalOp crypto checker sigversion flags op' data rest s = .ok s')
      (run : Executed op n rest s') : Executed op n script s

end

lemma masked_eq (x : ℕ) :
  x &&& lockTimeMask = (if x.testBit 22 then 2 ^ 22 else 0) + x % 2 ^ 16 := by
  have mask : lockTimeMask = 2 ^ 22 ||| (2 ^ 16 - 1) := by decide
  have low : x % 2 ^ 16 < 2 ^ 22 := (Nat.mod_lt x (by decide)).trans (by decide)
  rw [mask, Nat.and_or_distrib_left, Nat.and_two_pow_sub_one_eq_mod, Nat.and_two_pow]
  cases x.testBit 22 with
  | false => simp
  | true =>
    have sum := Nat.two_pow_add_eq_or_of_lt low 1
    simpa using sum.symm

lemma and_typeFlag_eq_zero (x : ℕ) : x &&& sequenceLocktimeTypeFlag = 0 ↔ x.testBit 22 = false := by
  have flag : sequenceLocktimeTypeFlag = 2 ^ 22 := by decide
  rw [flag, Nat.and_two_pow]
  cases x.testBit 22 <;> simp

lemma and_locktimeMask (x : ℕ) : x &&& sequenceLocktimeMask = x % 2 ^ 16 :=
  Nat.and_two_pow_sub_one_eq_mod x 16

lemma masked_lt_typeFlag (x : ℕ) :
  x &&& lockTimeMask < sequenceLocktimeTypeFlag ↔ x.testBit 22 = false := by
  have flag : sequenceLocktimeTypeFlag = 2 ^ 22 := by decide
  have low : x % 2 ^ 16 < 2 ^ 22 := (Nat.mod_lt x (by decide)).trans (by decide)
  rw [masked_eq, flag]
  cases x.testBit 22 with
  | false => simpa using low
  | true => simp

section
variable {tx : CTransaction} {nIn : Fin tx.vin.length} {n : ℤ}

lemma checkLockTime_spec (hp : checkLockTime tx nIn n = true) :
  (n < locktimeThreshold ↔ tx.nLockTime < locktimeThreshold) ∧ n ≤ tx.nLockTime ∧
    (tx.vin.get nIn).nSequence ≠ sequenceFinal := by
  rw [checkLockTime] at hp
  split_ifs at hp with hs late final
  rcases hs with ⟨height, operand⟩ | ⟨time, operand⟩
  · exact ⟨by omega, by omega, Ne.symm final⟩
  · exact ⟨by omega, by omega, Ne.symm final⟩

/-- The operand and the sequence number are of one kind, and the operand asks for no more. -/
lemma checkSequence_spec (hp : checkSequence tx nIn n = true) :
  let nSequence := (tx.vin.get nIn).nSequence
  2 ≤ tx.version ∧ nSequence &&& sequenceLocktimeDisableFlag = 0 ∧
    nSequence.testBit 22 = n.toNat.testBit 22 ∧ n.toNat % 2 ^ 16 ≤ nSequence % 2 ^ 16 := by
  intro nSequence
  rw [checkSequence] at hp
  split_ifs at hp with version hd hs late
  have kind : nSequence.testBit 22 = n.toNat.testBit 22 := by
    rcases hs with ⟨height, operand⟩ | ⟨time, operand⟩
    · rw [masked_lt_typeFlag] at height operand
      exact height.trans operand.symm
    · rw [ge_iff_le, ← not_lt, masked_lt_typeFlag, Bool.not_eq_false] at time operand
      exact time.trans operand.symm
  refine ⟨by omega, Decidable.not_not.mp hd, kind, ?_⟩
  have le := not_lt.mp late
  rw [masked_eq, masked_eq, ← kind] at le
  exact Nat.add_le_add_iff_left.mp le

lemma isFinalTx_spec {nBlockHeight nBlockTime : ℤ}
  (hf : isFinalTx tx nBlockHeight nBlockTime = true)
  (hu : (tx.vin.get nIn).nSequence ≠ sequenceFinal) : tx.nLockTime = 0 ∨ (tx.nLockTime : ℤ) <
    if tx.nLockTime < locktimeThreshold then nBlockHeight else nBlockTime := by
  rw [isFinalTx] at hf
  by_cases hz : tx.nLockTime = 0
  · exact .inl hz
  rw [if_neg hz] at hf
  by_contra! early
  rw [if_neg (not_lt.mpr early.2)] at hf
  have sealed := List.all_eq_true.mp hf _ (List.get_mem tx.vin nIn)
  exact hu (eq_of_beq sealed)

end

section
variable {B : Type*} {chain : BlockChain B} {block : B} {txin : CTxIn} {vin : List CTxIn}
  {heights prevHeights : List ℤ} {locks locks' : LockPair} {nCoinHeight : ℤ}

/-- The lock that an input puts on a coin of some height is over in a block of height `nHeight`
whose parent's median time is `nTime`. -/
def Over (chain : BlockChain B) (block : B) (nHeight nTime : ℤ) (txin : CTxIn) (nCoinHeight : ℤ) :
  Prop :=
  txin.nSequence &&& sequenceLocktimeDisableFlag = 0 →
    if txin.nSequence &&& sequenceLocktimeTypeFlag ≠ 0 then
      ∃ before, chain.getAncestor block (max (nCoinHeight - 1) 0) = some before ∧
        chain.getMedianTimePast before +
          ((txin.nSequence &&& sequenceLocktimeMask) <<< sequenceLocktimeGranularity : ℕ) - 1 < nTime
    else (nCoinHeight + (txin.nSequence &&& sequenceLocktimeMask : ℕ) - 1).bmod (2 ^ 32) < nHeight

/-- The coins that no height lock can wrap around. -/
def Low (nCoinHeight : ℤ) : Prop := 0 ≤ nCoinHeight ∧ nCoinHeight ≤ 2 ^ 31 - 2 ^ 16

lemma Low.bmod_eq (low : Low nCoinHeight) (nSequence : ℕ) :
  (nCoinHeight + (nSequence &&& sequenceLocktimeMask : ℕ) - 1).bmod (2 ^ 32)
    = nCoinHeight + (nSequence &&& sequenceLocktimeMask : ℕ) - 1 := by
  obtain ⟨low, high⟩ := low
  have small : nSequence % 2 ^ 16 < 2 ^ 16 := Nat.mod_lt _ (by decide)
  rw [and_locktimeMask]
  refine Int.bmod_eq_of_le ?_ ?_ <;> omega

/-- The lock as it is meant, without the last height and time at which it holds. -/
lemma over_iff {nHeight nTime : ℤ} (low : Low nCoinHeight) :
  Over chain block nHeight nTime txin nCoinHeight ↔
  (txin.nSequence &&& sequenceLocktimeDisableFlag = 0 →
    if txin.nSequence &&& sequenceLocktimeTypeFlag = 0 then
      nCoinHeight + (txin.nSequence &&& sequenceLocktimeMask : ℕ) ≤ nHeight
    else ∃ before, chain.getAncestor block (max (nCoinHeight - 1) 0) = some before ∧
      chain.getMedianTimePast before + 512 * (txin.nSequence &&& sequenceLocktimeMask : ℕ)
        ≤ nTime) := by
  refine imp_congr_right fun _ => ?_
  rw [ite_not, Nat.shiftLeft_eq, sequenceLocktimeGranularity, low.bmod_eq]
  split_ifs
  · omega
  · refine exists_congr fun before => and_congr_right fun _ => ?_
    push_cast
    omega

lemma eq_some_of_map_cons {x : Option (LockPair × List ℤ)} {nHeight : ℤ}
  (eq : (x.map fun r => (r.1, nHeight :: r.2)) = some (locks, heights)) :
  ∃ rest, x = some (locks, rest) ∧ heights = nHeight :: rest := by
  obtain ⟨r, hf, eq⟩ := map_eq_some_iff.mp eq
  cases eq
  exact ⟨r.2, hf, rfl⟩

/-- The heights as the loop leaves them. -/
def cleared (nCoinHeight : CTxIn → ℤ) (txin : CTxIn) : ℤ :=
  if txin.nSequence &&& sequenceLocktimeDisableFlag ≠ 0 then 0 else nCoinHeight txin

lemma sequenceLocksLoop_cons
  (run : sequenceLocksLoop chain block (txin :: vin) (nCoinHeight :: prevHeights) locks
    = some (locks', heights)) :
  ∃ next rest, sequenceLocksLoop chain block vin prevHeights next = some (locks', rest) ∧
    heights = cleared (fun _ => nCoinHeight) txin :: rest ∧
    ∀ nHeight nTime, next.nMinHeight < nHeight ∧ next.nMinTime < nTime ↔
      (locks.nMinHeight < nHeight ∧ locks.nMinTime < nTime) ∧
        Over chain block nHeight nTime txin nCoinHeight := by
  rw [sequenceLocksLoop] at run
  split_ifs at run with hd time
  · obtain ⟨rest, hl, rfl⟩ := eq_some_of_map_cons run
    exact ⟨locks, rest, hl, by rw [cleared, if_pos hd], by simp [Over, hd]⟩
  · obtain ⟨before, hf, run⟩ := bind_eq_some_iff.mp run
    obtain ⟨rest, hl, rfl⟩ := eq_some_of_map_cons run
    refine ⟨_, rest, hl, by rw [cleared, if_neg hd], fun nHeight nTime => ?_⟩
    simp only [Over, not_not.mp hd, if_pos time, hf, max_lt_iff, and_assoc]
    simp
  · obtain ⟨rest, hl, rfl⟩ := eq_some_of_map_cons run
    refine ⟨_, rest, hl, by rw [cleared, if_neg hd], fun nHeight nTime => ?_⟩
    simp only [Over, not_not.mp hd, if_neg time, max_lt_iff]
    tauto

/-- Both locks are below a height and a time exactly when those of all inputs are over. -/
lemma sequenceLocksLoop_spec (hs : prevHeights.length = vin.length)
  (run : sequenceLocksLoop chain block vin prevHeights locks = some (locks', heights)) :
  heights = List.zipWith (fun txin nCoinHeight => cleared (fun _ => nCoinHeight) txin) vin prevHeights ∧
  ∀ nHeight nTime, locks'.nMinHeight < nHeight ∧ locks'.nMinTime < nTime ↔
    (locks.nMinHeight < nHeight ∧ locks.nMinTime < nTime) ∧
      ∀ p ∈ vin.zip prevHeights, Over chain block nHeight nTime p.1 p.2 := by
  induction vin generalizing prevHeights heights locks with
  | nil =>
    obtain rfl := List.length_eq_zero_iff.mp hs
    cases run
    simp
  | cons txin vin ih =>
    obtain ⟨nCoinHeight, prevHeights, rfl⟩ := List.exists_cons_of_length_eq_add_one hs
    obtain ⟨next, rest, more, rfl, first⟩ := sequenceLocksLoop_cons run
    obtain ⟨rfl, hl⟩ := ih (Nat.succ.inj hs) more
    refine ⟨rfl, fun nHeight nTime => ?_⟩
    rw [hl, first, List.zip_cons_cons, List.forall_mem_cons, and_assoc]

lemma sequenceLocksLoop_runs (hk : ∀ p ∈ vin.zip prevHeights,
    p.1.nSequence &&& sequenceLocktimeDisableFlag = 0 →
      p.1.nSequence &&& sequenceLocktimeTypeFlag ≠ 0 →
        ∃ before, chain.getAncestor block (max (p.2 - 1) 0) = some before) :
  (sequenceLocksLoop chain block vin prevHeights locks).isSome = true := by
  induction vin generalizing prevHeights locks with
  | nil => rfl
  | cons txin vin ih =>
    cases prevHeights with
    | nil => rfl
    | cons nCoinHeight prevHeights =>
      rw [List.zip_cons_cons, List.forall_mem_cons] at hk
      rw [sequenceLocksLoop]
      split_ifs with hd time
      · rw [isSome_map]
        exact ih hk.2
      · obtain ⟨before, hf⟩ := hk.1 (not_not.mp hd) time
        rw [hf, bind_some, isSome_map]
        exact ih hk.2
      · rw [isSome_map]
        exact ih hk.2

lemma sequenceLocks_eq_true {tx : CTransaction} {flags : ℕ} {parent : B}
  (edge : chain.pprev block = some parent) :
  sequenceLocks tx chain flags prevHeights block = some (true, heights) ↔
    ∃ locks, calculateSequenceLocks tx chain flags prevHeights block = some (locks, heights) ∧
      locks.nMinHeight < chain.nHeight block ∧ locks.nMinTime < chain.getMedianTimePast parent := by
  simp [sequenceLocks, evaluateSequenceLocks, edge, bind_eq_some_iff]

/-- A transaction passes in a block that is past the locks of all its inputs. -/
lemma sequenceLocks_iff {tx : CTransaction} {flags : ℕ} {parent : B}
  (edge : chain.pprev block = some parent) (hs : prevHeights.length = tx.vin.length) :
  (∃ heights, sequenceLocks tx chain flags prevHeights block = some (true, heights)) ↔
    -1 < chain.getMedianTimePast parent ∧
      (tx.version < 2 ∨ flags &&& locktimeVerifySequence = 0 ∨ ∀ p ∈ tx.vin.zip prevHeights,
        Over chain block (chain.nHeight block) (chain.getMedianTimePast parent) p.1 p.2) := by
  simp only [sequenceLocks_eq_true edge, calculateSequenceLocks, if_neg (not_not.mpr hs)]
  by_cases he : tx.version ≥ 2 ∧ flags &&& locktimeVerifySequence ≠ 0
  · simp only [if_neg (not_not.mpr he), or_iff_right (not_lt.mpr he.1), or_iff_right he.2]
    constructor
    · rintro ⟨heights, locks, run, past⟩
      have all := ((sequenceLocksLoop_spec hs run).2 _ _).mp past
      exact ⟨all.1.2, all.2⟩
    rintro ⟨time, all⟩
    have runs := @sequenceLocksLoop_runs _ chain block tx.vin prevHeights ⟨-1, -1⟩
      fun p mem hen timed => by
        have found := all p mem hen
        rw [if_pos timed] at found
        exact found.imp fun _ => And.left
    obtain ⟨⟨locks, heights⟩, run⟩ := isSome_iff_exists.mp runs
    refine ⟨heights, locks, run, ((sequenceLocksLoop_spec hs run).2 _ _).mpr ⟨⟨?_, time⟩, all⟩⟩
    dsimp only
    omega
  · have off : tx.version < 2 ∨ flags &&& locktimeVerifySequence = 0 := by omega
    simp only [if_pos he]
    constructor
    · rintro ⟨heights, locks, run, -, past⟩
      cases run
      exact ⟨past, off.imp_right .inl⟩
    rintro ⟨time, -⟩
    refine ⟨prevHeights, _, rfl, ?_, time⟩
    dsimp only
    omega

end

section
variable {crypto : Crypto} {sigversion : SigVersion} {flags : ScriptVerifyFlags} {script : CScript}
  {s : ScriptState} {n : ℤ}

/-- An opcode that a script got past in a branch that is taken has been run. -/
lemma Executed.ran {checker : SignatureChecker} {op : Opcode} (he : op.isPush = false)
  (run : Executed crypto checker sigversion flags op n script s) :
  ∃ (counted after : ScriptState) (top : Bytes) (below : List Bytes) (rest : CScript),
    counted.stack = top :: below ∧ scriptNum flags top 5 = .ok n ∧
    execOp crypto checker sigversion flags op rest counted = .ok after := by
  induction run with
  | later reads hp run ih => exact ih
  | @here _ _ _ _ _ s _ reads taken stack operand hp =>
    obtain ⟨_, -, hp⟩ := bind_eq_ok.mp hp
    obtain ⟨counted, count, hp⟩ := bind_eq_ok.mp hp
    obtain ⟨_, -, hp⟩ := bind_eq_ok.mp hp
    obtain ⟨_, -, hp⟩ := bind_eq_ok.mp hp
    obtain ⟨after, run, -⟩ := bind_eq_ok.mp hp
    have kept : counted.stack = s.stack ∧ counted.vfExec = s.vfExec := by
      rw [countOp] at count
      split_ifs at count <;> cases count <;> exact ⟨rfl, rfl⟩
    rw [dispatch, kept.2, taken, he] at run
    exact ⟨counted, after, _, _, _, kept.1.trans stack, operand, run⟩

variable {tx : CTransaction} {nIn : Fin tx.vin.length} {signatures : SignatureChecker}

/-- A script that got past the opcode has compared its operand with the lock time. -/
lemma Executed.checkLockTime (he : flags .checkLockTimeVerify = true)
  (run : Executed crypto (transactionChecker tx nIn signatures) sigversion flags
    .opCheckLockTimeVerify n script s) : checkLockTime tx nIn n = true := by
  obtain ⟨_, _, _, _, _, stack, operand, run⟩ := run.ran rfl
  change execCheckLockTimeVerify _ _ _ = _ at run
  rw [execCheckLockTimeVerify, if_pos he, stack] at run
  obtain ⟨_, operand', run⟩ := bind_eq_ok.mp run
  cases operand.symm.trans operand'
  obtain ⟨_, -, run⟩ := bind_eq_ok.mp run
  obtain ⟨_, hco, -⟩ := bind_eq_ok.mp run
  rw [failIf_eq_ok, Bool.not_eq_false'] at hco
  exact hco

lemma Executed.checkSequence
  (he : flags .checkSequenceVerify = true) (hoe : isSequenceDisabled n = false)
  (run : Executed crypto (transactionChecker tx nIn signatures) sigversion flags
    .opCheckSequenceVerify n script s) : checkSequence tx nIn n = true := by
  obtain ⟨_, _, _, _, _, stack, operand, run⟩ := run.ran rfl
  change execCheckSequenceVerify _ _ _ = _ at run
  rw [execCheckSequenceVerify, if_pos he, stack] at run
  obtain ⟨_, operand', run⟩ := bind_eq_ok.mp run
  cases operand.symm.trans operand'
  obtain ⟨_, -, run⟩ := bind_eq_ok.mp run
  obtain ⟨_, hco, -⟩ := bind_eq_ok.mp run
  rw [failIf_eq_ok, hoe, Bool.not_false, Bool.true_and, Bool.not_eq_false'] at hco
  exact hco

/-- **Lock times hold.** A transaction whose script got past `OP_CHECKLOCKTIMEVERIFY` is not final
before its operand, and one whose script got past `OP_CHECKSEQUENCEVERIFY` does not pass its sequence
locks before its coin has the age of the operand, unless the coin is one of the last that an `int`
can number. -/
theorem timelocks_hold {B : Type*} (chain : BlockChain B) (block parent : B)
  (edge : chain.pprev block = some parent) (tx : CTransaction) (nIn : Fin tx.vin.length)
  (signatures : SignatureChecker) (crypto : Crypto) (sigversion : SigVersion)
  (flags : ScriptVerifyFlags) (script : CScript) (s : ScriptState) (n : ℤ) :
  (flags .checkLockTimeVerify = true →
    Executed crypto (transactionChecker tx nIn signatures) sigversion flags
      .opCheckLockTimeVerify n script s →
    ∀ cutoff : ℤ, isFinalTx tx (chain.nHeight block) cutoff = true →
      if n < locktimeThreshold then n < chain.nHeight block else n < cutoff) ∧
  (flags .checkSequenceVerify = true →
    Executed crypto (transactionChecker tx nIn signatures) sigversion flags
      .opCheckSequenceVerify n script s → isSequenceDisabled n = false →
    ∀ (lockFlags : ℕ) (prevHeights heights : List ℤ) (nCoinHeight : ℤ),
      lockFlags &&& locktimeVerifySequence ≠ 0 → prevHeights[nIn.val]? = some nCoinHeight →
      Low nCoinHeight → sequenceLocks tx chain lockFlags prevHeights block = some (true, heights) →
      if n.toNat &&& sequenceLocktimeTypeFlag = 0 then
        (n.toNat &&& sequenceLocktimeMask : ℕ) ≤ chain.nHeight block - nCoinHeight
      else ∃ before, chain.getAncestor block (max (nCoinHeight - 1) 0) = some before ∧
        512 * (n.toNat &&& sequenceLocktimeMask : ℕ)
          ≤ chain.getMedianTimePast parent - chain.getMedianTimePast before) := by
  have height := chain.graded block parent edge
  refine ⟨fun he run cutoff final => ?_, ?_⟩
  · obtain ⟨kind, le, unsealed⟩ := checkLockTime_spec (run.checkLockTime he)
    have past := isFinalTx_spec final unsealed
    have threshold : 0 < locktimeThreshold := by decide
    split_ifs at past ⊢ with absolute operand
    all_goals omega
  intro he run operandEnabled lockFlags prevHeights heights nCoinHeight hen spent low hp
  obtain ⟨version, inputEnabled, kind, le⟩ :=
    checkSequence_spec (run.checkSequence he operandEnabled)
  have sizes : prevHeights.length = tx.vin.length := by
    by_contra ne
    simp [sequenceLocks, calculateSequenceLocks, ne] at hp
  have input : (tx.vin.get nIn, nCoinHeight) ∈ tx.vin.zip prevHeights :=
    List.mem_of_getElem? (List.getElem?_zip_eq_some.mpr ⟨List.getElem?_eq_getElem nIn.isLt, spent⟩)
  obtain ⟨-, off | off | all⟩ := (sequenceLocks_iff edge sizes).mp ⟨heights, hp⟩
  · omega
  · exact absurd off hen
  have waited := all _ input
  rw [over_iff low] at waited
  replace waited := waited inputEnabled
  simp only [and_typeFlag_eq_zero, kind, and_locktimeMask] at waited ⊢
  split_ifs at waited ⊢ with height
  · omega
  · obtain ⟨before, hf, waited⟩ := waited
    exact ⟨before, hf, by omega⟩

/-- A chain with a block every ten minutes. -/
def everyTenMinutes : BlockChain ℕ where
  pprev b := if b = 0 then none else some (b - 1)
  nHeight b := b
  nTime b := 600 * b
  graded b parent edge := by
    dsimp only at edge
    split_ifs at edge with first
    cases edge
    dsimp only
    omega
  genesis b edge := by simpa using edge

/-- A transaction that can be in block three and spend a coin two blocks old. -/
def patientSpend : CTransaction :=
  ⟨[⟨⟨1, 0⟩, [], 2, []⟩], [], 2, 2, 7, 7⟩

theorem timelocks_hold_everyTenMinutes : (2 : ℤ) < everyTenMinutes.nHeight 5 ∧
    (2 &&& sequenceLocktimeMask : ℕ) ≤ (everyTenMinutes.nHeight 5 : ℤ) - 1 := by
  have timelocks := timelocks_hold everyTenMinutes 5 4 rfl patientSpend ⟨0, by decide⟩ .base
    ⟨id, id, id, fun _ => true⟩ .base (fun _ => true) [0xb1, 0xb2]
    ⟨[[2]], [], .new, 0, [], 0, .new⟩ 2
  have absolute := timelocks.1 rfl (.here rfl rfl rfl rfl rfl) 0 (by decide)
  have relative := timelocks.2 rfl (.later rfl rfl (.here rfl rfl rfl rfl rfl)) rfl 1 [1] [1] 1
    (by decide) rfl (by unfold Low; decide) (by decide)
  exact ⟨absolute, relative⟩

/-- A chain on which the clock stands still. -/
def frozenClock : BlockChain ℕ := { everyTenMinutes with nTime := fun _ => 0 }

/-- A transaction with the longest height lock. -/
def longestLock : CTransaction := ⟨[⟨⟨1, 0⟩, [], 0xffff, []⟩], [], 2, 0, 7, 7⟩

/-- In the last block that an `int` can number, a coin of that block passes the longest lock. -/
theorem timelocks_wrap :
  Executed ⟨id, id, id, fun _ => true⟩ (transactionChecker longestLock ⟨0, by decide⟩ .base) .base
    (fun _ => true) .opCheckSequenceVerify 0xffff [0xb2] ⟨[[0xff, 0xff, 0]], [], .new, 0, [], 0, .new⟩ ∧
  isSequenceDisabled 0xffff = false ∧
  sequenceLocks longestLock frozenClock 1 [2147483647] 2147483647 = some (true, [2147483647]) ∧
  ¬ ((0xffff &&& sequenceLocktimeMask : ℕ) ≤ (frozenClock.nHeight 2147483647 : ℤ) - 2147483647) :=
  ⟨.here rfl rfl rfl rfl rfl, rfl, by decide, by decide⟩

end

variable {B : Type*} (chain : BlockChain B) (block : B)

/-- The values an `int` can hold. -/
def InInt32 (n : ℤ) : Prop := -(2 ^ 31) ≤ n ∧ n < 2 ^ 31

/-- What the loop works out for an input fits its types. -/
def Fits (txin : CTxIn) (nCoinHeight : ℤ) : Prop :=
  let value := txin.nSequence &&& sequenceLocktimeMask
  let relative := value <<< sequenceLocktimeGranularity
  txin.nSequence &&& sequenceLocktimeDisableFlag = 0 →
    if txin.nSequence &&& sequenceLocktimeTypeFlag ≠ 0 then
      InInt32 (nCoinHeight - 1) ∧ relative < 2 ^ 32 ∧
        ∀ before ∈ chain.getAncestor block (max (nCoinHeight - 1) 0),
          InInt64 (chain.getMedianTimePast before + relative) ∧
            InInt64 (chain.getMedianTimePast before + relative - 1)
    else InInt32 (nCoinHeight + value) ∧ InInt32 (nCoinHeight + value - 1)

variable {chain}

/-- A median time past is the time of a block, or zero. -/
lemma getMedianTimePast_of_times {P : ℤ → Prop} (zero : P 0) (times : ∀ b, P (chain.nTime b))
  (b : B) : P (chain.getMedianTimePast b) := by
  have entry {l : List ℤ} {i : ℕ} (all : ∀ t ∈ l, P t) : P (l.getD i 0) := by
    rw [List.getD_eq_getElem?_getD]
    cases found : l[i]? with
    | none => exact zero
    | some t => exact all t (List.mem_of_getElem? found)
  refine entry fun t mem => ?_
  rw [List.mem_insertionSort] at mem
  obtain ⟨b', -, rfl⟩ := List.mem_map.mp mem
  exact times b'

variable (times : ∀ b, 0 ≤ chain.nTime b ∧ chain.nTime b < 2 ^ 32)
include times

lemma fits_of_low {txin : CTxIn} {nCoinHeight : ℤ} (low : Low nCoinHeight) :
  Fits chain block txin nCoinHeight := by
  obtain ⟨low, high⟩ := low
  unfold Fits InInt32 InInt64
  intro value relative _
  have small : value < 2 ^ 16 :=
    (and_locktimeMask txin.nSequence).trans_lt (Nat.mod_lt _ (by decide))
  have shifted : relative = value * 2 ^ 9 := Nat.shiftLeft_eq ..
  split_ifs
  · refine ⟨⟨by omega, by omega⟩, by omega, fun before _ => ?_⟩
    have range := getMedianTimePast_of_times (P := fun t => 0 ≤ t ∧ t < 2 ^ 32) (by decide) times before
    exact ⟨⟨by omega, by omega⟩, by omega, by omega⟩
  · exact ⟨⟨by omega, by omega⟩, by omega, by omega⟩

/-- **Relative lock times.** A transaction whose coins are low passes exactly where each of its
inputs has waited. -/
theorem sequenceLocks_correct (parent : B) (edge : chain.pprev block = some parent)
  (tx : CTransaction) (flags : ℕ) (prevHeights : List ℤ)
  (hs : prevHeights.length = tx.vin.length) : ((∀ nCoinHeight ∈ prevHeights, Low nCoinHeight) →
    ((∃ heights, sequenceLocks tx chain flags prevHeights block = some (true, heights)) ↔
      tx.version < 2 ∨ flags &&& locktimeVerifySequence = 0 ∨ ∀ p ∈ tx.vin.zip prevHeights,
        p.1.nSequence &&& sequenceLocktimeDisableFlag = 0 →
          if p.1.nSequence &&& sequenceLocktimeTypeFlag = 0 then
            p.2 + (p.1.nSequence &&& sequenceLocktimeMask : ℕ) ≤ chain.nHeight block
          else ∃ before, chain.getAncestor block (max (p.2 - 1) 0) = some before ∧
            chain.getMedianTimePast before + 512 * (p.1.nSequence &&& sequenceLocktimeMask : ℕ)
              ≤ chain.getMedianTimePast parent)) ∧
  ((∀ nCoinHeight ∈ prevHeights, 0 ≤ nCoinHeight ∧ nCoinHeight ≤ chain.nHeight block) →
    (sequenceLocks tx chain flags prevHeights block).isSome = true ∧
    (chain.nHeight block ≤ 2 ^ 31 - 2 ^ 16 →
      ∀ p ∈ tx.vin.zip prevHeights, Fits chain block p.1 p.2)) := by
  have time := getMedianTimePast_of_times (P := fun t => 0 ≤ t ∧ t < 2 ^ 32) (by decide) times parent
  refine ⟨fun low => ?_, fun heights => ⟨?_, fun hh p mem => ?_⟩⟩
  · have started : -1 < chain.getMedianTimePast parent := by omega
    rw [sequenceLocks_iff edge hs, and_iff_right started]
    refine or_congr_right (or_congr_right (forall₂_congr fun p mem => ?_))
    exact over_iff (low p.2 (List.of_mem_zip mem).2)
  · have runs : (calculateSequenceLocks tx chain flags prevHeights block).isSome = true := by
      rw [calculateSequenceLocks, if_neg (not_not.mpr hs)]
      split_ifs
      · refine sequenceLocksLoop_runs fun p mem _ _ => ?_
        have height := heights p.2 (List.of_mem_zip mem).2
        exact (chain.exists_getAncestor block (le_max_right ..) (by omega)).imp fun _ => And.left
      · rfl
    obtain ⟨r, run⟩ := isSome_iff_exists.mp runs
    simp [sequenceLocks, run, evaluateSequenceLocks, edge]
  · have height := heights p.2 (List.of_mem_zip mem).2
    exact fits_of_low block times ⟨height.1, by omega⟩

omit times

theorem sequenceLocks_correct_patientSpend :
  ∃ heights, sequenceLocks patientSpend frozenClock 1 [1] 5 = some (true, heights) :=
  ((sequenceLocks_correct 5 (fun _ => by simp [frozenClock]) 4 rfl patientSpend 1 [1] rfl).1
    (by unfold Low; decide)).mpr (.inr (.inr (by decide)))

/-- In the last block that an `int` can number, a coin of that block overflows the height lock, and
a spend of it passes. -/
theorem sequenceLocks_overflow : (∀ b, 0 ≤ frozenClock.nTime b ∧ frozenClock.nTime b < 2 ^ 32) ∧
  frozenClock.pprev 2147483647 = some 2147483646 ∧
  (2147483647 : ℤ) ≤ frozenClock.nHeight 2147483647 ∧ InInt32 (frozenClock.nHeight 2147483647) ∧
  ¬ Fits frozenClock 2147483647 ⟨⟨1, 0⟩, [], 0xffff, []⟩ 2147483647 ∧
  sequenceLocks longestLock frozenClock 1 [2147483647] 2147483647 = some (true, [2147483647]) := by
  refine ⟨fun _ => by simp [frozenClock], rfl, by decide, by unfold InInt32; decide, fun hf => ?_,
    by decide⟩
  have range := (hf rfl).1
  unfold InInt32 at range
  exact absurd range (by decide)

end LockTime
