import Andaluzcoin.Serialize

/-!
# The wire format of transactions

`SerializeTransaction` and `UnserializeTransaction` of `primitives/transaction.h`. Witnesses are
announced by an empty list of inputs and a byte of flags in front of the inputs.
-/

namespace TxSerialization

open Transaction Script Serialize StreamReader List

/-- What a transaction consists of, without the hashes that are computed from it. -/
structure CMutableTransaction where
  vin : List CTxIn
  vout : List CTxOut
  version : ℕ
  nLockTime : ℕ
  deriving DecidableEq

def serOutPoint (o : COutPoint) : Bytes := writeLE 32 o.hash.toNat ++ writeLE 4 o.n

def unserOutPoint : Stream COutPoint := do
  let hash ← serReaddata 32
  let n ← serReaddata 4
  pure ⟨BitVec.ofNat 256 hash, n⟩

/-- The witness of an input is not among its own bytes. -/
def serTxIn (txin : CTxIn) : Bytes :=
  serOutPoint txin.prevout ++ (serBytes txin.scriptSig ++ writeLE 4 txin.nSequence)

def unserTxIn : Stream CTxIn := do
  let prevout ← unserOutPoint
  let scriptSig ← unserBytes
  let nSequence ← serReaddata 4
  pure ⟨prevout, scriptSig, nSequence, []⟩

def serTxOut (out : CTxOut) : Bytes := writeLE 8 (toUint64 out.nValue) ++ serBytes out.scriptPubKey

def unserTxOut : Stream CTxOut := do
  let nValue ← serReaddata 8
  let scriptPubKey ← unserBytes
  pure ⟨toInt64 nValue, scriptPubKey⟩

def hasWitness (vin : List CTxIn) : Bool := vin.any fun txin => !txin.scriptWitness.isEmpty

/-- The stack of a `CScriptWitness`. -/
def serWitness (txin : CTxIn) : Bytes := serVector serBytes txin.scriptWitness

/-- The loop that gives the inputs their witnesses. -/
def unserWitnesses : List CTxIn → Stream (List CTxIn)
  | [] => pure []
  | txin :: rest => do
    let scriptWitness ← unserVector unserBytes
    let rest ← unserWitnesses rest
    pure ({ txin with scriptWitness := scriptWitness } :: rest)

/-- The flags, the inputs and the outputs, after the inputs that were read first. -/
def unserInputs (fAllowWitness : Bool) (vin : List CTxIn) : Stream (ℕ × List CTxIn × List CTxOut) :=
  if vin.isEmpty && fAllowWitness then do
    let flags ← serReaddata 1
    if flags ≠ 0 then
      let vin ← unserVector unserTxIn
      let vout ← unserVector unserTxOut
      pure (flags, vin, vout)
    else pure (flags, vin, [])
  else do
    let vout ← unserVector unserTxOut
    pure (0, vin, vout)

/-- The flags that are left and the inputs with their witnesses. -/
def unserFlagged (fAllowWitness : Bool) (flags : ℕ) (vin : List CTxIn) : Stream (ℕ × List CTxIn) :=
  if flags &&& 1 ≠ 0 && fAllowWitness then do
    let vin ← unserWitnesses vin
    if !hasWitness vin then fail "Superfluous witness record" else pure (flags ^^^ 1, vin)
  else pure (flags, vin)

def unserializeTransaction (fAllowWitness : Bool) : Stream CMutableTransaction := do
  let version ← serReaddata 4
  let first ← unserVector unserTxIn
  let (flags, vin, vout) ← unserInputs fAllowWitness first
  let (flags, vin) ← unserFlagged fAllowWitness flags vin
  if flags ≠ 0 then fail "Unknown transaction optional data"
  else
    let nLockTime ← serReaddata 4
    pure ⟨vin, vout, version, nLockTime⟩

def serializeTransaction (fAllowWitness : Bool) (tx : CMutableTransaction) : Bytes :=
  let flags := if fAllowWitness && hasWitness tx.vin then 1 else 0
  writeLE 4 tx.version ++
    ((if flags ≠ 0 then serVector serTxIn [] ++ writeLE 1 flags else []) ++
      (serVector serTxIn tx.vin ++ (serVector serTxOut tx.vout ++
        ((if flags &&& 1 ≠ 0 then tx.vin.flatMap serWitness else []) ++ writeLE 4 tx.nLockTime))))

/-- The numbers of a transaction are within the types the source gives them. -/
structure InTypes (tx : CMutableTransaction) : Prop where
  version : tx.version < 2 ^ 32
  nLockTime : tx.nLockTime < 2 ^ 32
  inputs : ∀ txin ∈ tx.vin, txin.prevout.n < 2 ^ 32 ∧ txin.nSequence < 2 ^ 32
  outputs : ∀ out ∈ tx.vout, InInt64 out.nValue

/-- No vector of a transaction is longer than a reader accepts. -/
structure Sized (tx : CMutableTransaction) : Prop where
  vin : tx.vin.length ≤ maxSize
  vout : tx.vout.length ≤ maxSize
  inputs : ∀ txin ∈ tx.vin, txin.scriptSig.length ≤ maxSize ∧
    txin.scriptWitness.length ≤ maxSize ∧ ∀ item ∈ txin.scriptWitness, item.length ≤ maxSize
  outputs : ∀ out ∈ tx.vout, out.scriptPubKey.length ≤ maxSize

lemma unserOutPoint_reads {o : COutPoint} (fits : o.n < 2 ^ 32) :
  Reads unserOutPoint (serOutPoint o) o := by
  have hash : o.hash.toNat < 256 ^ 32 := o.hash.isLt.trans_le (by decide)
  refine (serReaddata_reads hash).bind ((serReaddata_reads fits).bind_last ?_)
  rw [BitVec.ofNat_toNat, BitVec.setWidth_eq]

lemma unserOutPoint_canonical : Canonical unserOutPoint serOutPoint := by
  intro input o rest ha
  obtain ⟨hash, middle, first, ha⟩ := bind_eq_ok.mp ha
  obtain ⟨n, hs, rfl⟩ := bind_pure_eq_ok.mp ha
  obtain ⟨hf, rfl⟩ := serReaddata_eq_ok first
  obtain ⟨-, rfl⟩ := serReaddata_eq_ok hs
  have same : (BitVec.ofNat 256 hash).toNat = hash := by
    rw [BitVec.toNat_ofNat]
    exact Nat.mod_eq_of_lt (hf.trans_le (by decide))
  rw [serOutPoint, same, append_assoc]

lemma unserTxIn_reads {txin : CTxIn} (n : txin.prevout.n < 2 ^ 32) (hns : txin.nSequence < 2 ^ 32)
  (size : txin.scriptSig.length ≤ maxSize) :
  Reads unserTxIn (serTxIn txin) { txin with scriptWitness := [] } :=
  (unserOutPoint_reads n).bind
    ((unserBytes_reads size).bind ((serReaddata_reads hns).bind_last rfl))

lemma unserTxIn_canonical : Canonical unserTxIn serTxIn := by
  intro input txin rest ha
  obtain ⟨prevout, afterPrevout, first, ha⟩ := bind_eq_ok.mp ha
  obtain ⟨scriptSig, afterScript, hs, ha⟩ := bind_eq_ok.mp ha
  obtain ⟨nSequence, third, rfl⟩ := bind_pure_eq_ok.mp ha
  rw [unserOutPoint_canonical _ _ _ first, unserBytes_canonical _ _ _ hs,
    serReaddata_canonical 4 _ _ _ third, serTxIn]
  simp only [append_assoc]

lemma unserTxOut_reads {out : CTxOut} (hr : InInt64 out.nValue)
  (size : out.scriptPubKey.length ≤ maxSize) : Reads unserTxOut (serTxOut out) out := by
  refine (serReaddata_reads ((toUint64_lt _).trans_le (by decide))).bind
    ((unserBytes_reads size).bind_last ?_)
  rw [toInt64_toUint64 hr.1 hr.2]

lemma unserTxOut_canonical : Canonical unserTxOut serTxOut := by
  intro input out rest ha
  obtain ⟨nValue, afterValue, first, ha⟩ := bind_eq_ok.mp ha
  obtain ⟨scriptPubKey, hs, rfl⟩ := bind_pure_eq_ok.mp ha
  obtain ⟨hf, rfl⟩ := serReaddata_eq_ok first
  rw [unserBytes_canonical _ _ _ hs, serTxOut, toUint64_toInt64 (hf.trans_le (by decide)),
    append_assoc]

section
variable {input rest : Bytes} {tx : CMutableTransaction} {vin vin' : List CTxIn}

/-- An input as it is before its witness is read. -/
def stripWitness (txin : CTxIn) : CTxIn := { txin with scriptWitness := [] }

lemma serVector_strip (hs : vin.map stripWitness = vin'.map stripWitness) :
  serVector serTxIn vin = serVector serTxIn vin' := by
  have strip : ∀ vin : List CTxIn, serVector serTxIn (vin.map stripWitness) = serVector serTxIn vin := by
    intro vin
    rw [serVector, serVector, length_map, flatMap_map]
    rfl
  rw [← strip vin, hs, strip]

lemma map_strip_eq (none : hasWitness vin = false) : vin.map stripWitness = vin := by
  have each : ∀ txin ∈ vin, stripWitness txin = txin := by
    intro txin hm
    have empty : txin.scriptWitness = [] := by simpa using any_eq_false.mp none txin hm
    rw [stripWitness, ← empty]
  rw [map_congr_left each, map_id']

lemma unserVector_txIn_reads (ht : InTypes tx) (hs : Sized tx) :
  Reads (unserVector unserTxIn) (serVector serTxIn tx.vin) (tx.vin.map stripWitness) := by
  have strip : serVector serTxIn tx.vin = serVector serTxIn (tx.vin.map stripWitness) :=
    serVector_strip (by rw [map_map]; rfl)
  rw [strip]
  refine unserVector_reads (by rw [length_map]; exact hs.vin) ?_
  intro txin stripped
  obtain ⟨original, hm, rfl⟩ := mem_map.mp stripped
  obtain ⟨n, nSequence⟩ := ht.inputs original hm
  exact unserTxIn_reads n nSequence (hs.inputs original hm).1

lemma unserVector_txIn_plain
  (ha : unserVector unserTxIn input = .ok (vin, rest)) : hasWitness vin = false := by
  obtain ⟨size, middle, -, elements⟩ := bind_eq_ok.mp ha
  have plain : ∀ txin ∈ vin, txin.scriptWitness = [] := by
    refine times_forall ?_ elements
    intro input txin rest ha
    obtain ⟨prevout, _, -, ha⟩ := bind_eq_ok.mp ha
    obtain ⟨scriptSig, _, -, ha⟩ := bind_eq_ok.mp ha
    obtain ⟨nSequence, -, rfl⟩ := bind_pure_eq_ok.mp ha
    rfl
  rw [hasWitness, any_eq_false]
  intro txin hm
  simp [plain txin hm]

lemma unserVector_txOut_reads (ht : InTypes tx) (hs : Sized tx) :
  Reads (unserVector unserTxOut) (serVector serTxOut tx.vout) tx.vout :=
  unserVector_reads hs.vout fun out hm =>
    unserTxOut_reads (ht.outputs out hm) (hs.outputs out hm)

lemma unserWitnesses_reads (hs : ∀ txin ∈ vin, txin.scriptWitness.length ≤ maxSize ∧
    ∀ item ∈ txin.scriptWitness, item.length ≤ maxSize) :
  Reads (unserWitnesses (vin.map stripWitness)) (vin.flatMap serWitness) vin := by
  induction vin with
  | nil => exact reads_pure []
  | cons txin vin ih =>
    obtain ⟨size, items⟩ := hs txin (.head _)
    have stack := unserVector_reads size fun item hm => unserBytes_reads (items item hm)
    have later := ih fun other hm => hs other (.tail txin hm)
    exact stack.bind (later.bind_last rfl)

lemma unserWitnesses_eq_ok (ha : unserWitnesses vin input = .ok (vin', rest)) :
  vin'.map stripWitness = vin.map stripWitness ∧ input = vin'.flatMap serWitness ++ rest := by
  induction vin generalizing vin' input with
  | nil =>
    obtain ⟨rfl, rfl⟩ := pure_eq_ok.mp ha
    exact ⟨rfl, rfl⟩
  | cons txin vin ih =>
    obtain ⟨stack, middle, first, ha⟩ := bind_eq_ok.mp ha
    obtain ⟨hl, ho, rfl⟩ := bind_pure_eq_ok.mp ha
    obtain ⟨hs, rfl⟩ := ih ho
    refine ⟨by rw [map_cons, hs]; rfl, ?_⟩
    rw [unserVector_canonical unserBytes_canonical _ _ _ first, flatMap_cons, append_assoc]
    rfl

end

variable {input rest : Bytes} {tx : CMutableTransaction} {flags : ℕ}

/-- Flags that are not zero stand after an empty list of inputs. -/
lemma unserInputs_eq_ok {first vin : List CTxIn} {vout : List CTxOut}
  (ha : unserInputs true first input = .ok ((flags, vin, vout), rest)) : (first = [] ∧ flags ≠ 0 ∧
    input = writeLE 1 flags ++ (serVector serTxIn vin ++ (serVector serTxOut vout ++ rest))) ∨
  (flags = 0 ∧ vin = first ∧ input = serVector serTxOut vout ++ rest) := by
  rw [unserInputs, Bool.and_true] at ha
  split_ifs at ha with empty
  · obtain rfl := isEmpty_iff.mp empty
    obtain ⟨byte, afterFlags, flag, ha⟩ := bind_eq_ok.mp ha
    rw [serReaddata_canonical 1 _ _ _ flag]
    split_ifs at ha with hn
    · obtain ⟨vin', afterInputs, inputs, ha⟩ := bind_eq_ok.mp ha
      obtain ⟨vout', outputs, eq⟩ := bind_pure_eq_ok.mp ha
      cases eq
      refine .inl ⟨rfl, hn, ?_⟩
      rw [unserVector_canonical unserTxIn_canonical _ _ _ inputs,
        unserVector_canonical unserTxOut_canonical _ _ _ outputs]
    · obtain ⟨eq, rfl⟩ := pure_eq_ok.mp ha
      cases eq
      obtain rfl := not_not.mp hn
      exact .inr ⟨rfl, rfl, rfl⟩
  · obtain ⟨vout', outputs, eq⟩ := bind_pure_eq_ok.mp ha
    cases eq
    exact .inr ⟨rfl, rfl, unserVector_canonical unserTxOut_canonical _ _ _ outputs⟩

lemma unserFlagged_eq_ok {vin vin' : List CTxIn} {flags' : ℕ}
  (ha : unserFlagged true flags vin input = .ok ((flags', vin'), rest)) :
  (flags' = flags ^^^ 1 ∧ hasWitness vin' = true ∧
    vin'.map stripWitness = vin.map stripWitness ∧ input = vin'.flatMap serWitness ++ rest) ∨
  (flags' = flags ∧ vin' = vin ∧ input = rest) := by
  rw [unserFlagged, Bool.and_true] at ha
  split_ifs at ha with hf
  · obtain ⟨witnessed, middle, witnesses, ha⟩ := bind_eq_ok.mp ha
    obtain ⟨hs, text⟩ := unserWitnesses_eq_ok witnesses
    split_ifs at ha with superfluous
    · exact absurd ha fail_ne_ok
    · obtain ⟨eq, rfl⟩ := pure_eq_ok.mp ha
      cases eq
      exact .inl ⟨rfl, by simpa using superfluous, hs, text⟩
  · obtain ⟨eq, rfl⟩ := pure_eq_ok.mp ha
    cases eq
    exact .inr ⟨rfl, rfl, rfl⟩

lemma serializeTransaction_witness (hw : hasWitness tx.vin = true) :
  serializeTransaction true tx = writeLE 4 tx.version ++ (serVector serTxIn [] ++ (writeLE 1 1 ++
    (serVector serTxIn tx.vin ++ (serVector serTxOut tx.vout ++
      (tx.vin.flatMap serWitness ++ writeLE 4 tx.nLockTime))))) := by
  rw [serializeTransaction, hw]
  rfl

lemma serializeTransaction_plain (hp : hasWitness tx.vin = false) :
  serializeTransaction true tx = writeLE 4 tx.version ++
    (serVector serTxIn tx.vin ++ (serVector serTxOut tx.vout ++ writeLE 4 tx.nLockTime)) := by
  rw [serializeTransaction, hp]
  rfl

lemma unserializeTransaction_canonical :
  Canonical (unserializeTransaction true) (serializeTransaction true) := by
  intro input tx rest ha
  obtain ⟨version, afterVersion, versionRead, ha⟩ := bind_eq_ok.mp ha
  obtain ⟨first, afterFirst, firstRead, ha⟩ := bind_eq_ok.mp ha
  obtain ⟨⟨flags, vin, vout⟩, afterInputs, inputsRead, ha⟩ := bind_eq_ok.mp ha
  obtain ⟨⟨flags', vin'⟩, afterWitness, hwr, ha⟩ := bind_eq_ok.mp ha
  dsimp only at ha hwr
  split_ifs at ha with unknown
  · exact absurd ha fail_ne_ok
  obtain ⟨nLockTime, lockRead, rfl⟩ := bind_pure_eq_ok.mp ha
  have plain := unserVector_txIn_plain firstRead
  obtain rfl := serReaddata_canonical 4 _ _ _ versionRead
  obtain rfl := unserVector_canonical unserTxIn_canonical _ _ _ firstRead
  obtain rfl := serReaddata_canonical 4 _ _ _ lockRead
  obtain rfl := not_not.mp unknown
  rcases unserInputs_eq_ok inputsRead with ⟨rfl, hn, rfl⟩ | ⟨rfl, rfl, rfl⟩
  · rcases unserFlagged_eq_ok hwr with ⟨one, witness, hs, rfl⟩ | ⟨hz, -, -⟩
    · obtain rfl : flags = 1 := (xor_eq_zero_iff.mp one.symm)
      rw [serializeTransaction_witness witness, serVector_strip hs]
      simp only [append_assoc]
    · exact absurd hz.symm hn
  · rcases unserFlagged_eq_ok hwr with ⟨one, -, -, -⟩ | ⟨-, rfl, rfl⟩
    · cases one
    · rw [serializeTransaction_plain plain]
      simp only [append_assoc]

lemma unserEmpty_reads : Reads (unserVector unserTxIn) (serVector serTxIn []) [] :=
  unserVector_reads (Nat.zero_le _) (by simp)

lemma unserializeTransaction_reads_witness (ht : InTypes tx)
  (hs : Sized tx) (hw : hasWitness tx.vin = true) :
  Reads (unserializeTransaction true) (serializeTransaction true tx) tx := by
  have inputs : Reads (unserInputs true [])
    (writeLE 1 1 ++ (serVector serTxIn tx.vin ++ serVector serTxOut tx.vout))
    (1, tx.vin.map stripWitness, tx.vout) :=
    (serReaddata_reads (by decide)).bind ((unserVector_txIn_reads ht hs).bind
      ((unserVector_txOut_reads ht hs).bind_last rfl))
  have witnesses : Reads (unserFlagged true 1 (tx.vin.map stripWitness))
    (tx.vin.flatMap serWitness) (0, tx.vin) := by
    refine (unserWitnesses_reads fun txin hm => (hs.inputs txin hm).2).bind_last ?_
    rw [hw]
    rfl
  rw [serializeTransaction_witness hw, ← append_assoc (serVector serTxIn tx.vin),
    ← append_assoc (writeLE 1 1)]
  exact (serReaddata_reads ht.version).bind (unserEmpty_reads.bind (inputs.bind
    (witnesses.bind ((serReaddata_reads ht.nLockTime).bind_last rfl))))

lemma unserializeTransaction_reads_plain (ht : InTypes tx) (hs : Sized tx)
  (hp : hasWitness tx.vin = false) (form : tx.vin ≠ [] ∨ tx.vin = [] ∧ tx.vout = []) :
  Reads (unserializeTransaction true) (serializeTransaction true tx) tx := by
  have first := unserVector_txIn_reads ht hs
  rw [map_strip_eq hp] at first
  have inputs : Reads (unserInputs true tx.vin) (serVector serTxOut tx.vout)
    (0, tx.vin, tx.vout) := by
    rcases form with some | ⟨noInputs, noOutputs⟩
    · have present := isEmpty_eq_false_iff.mpr some
      rw [unserInputs, present]
      exact (unserVector_txOut_reads ht hs).bind_last rfl
    · -- the number of outputs is read as flags
      rw [noInputs, noOutputs]
      exact (serReaddata_reads (by decide)).bind_last rfl
  rw [serializeTransaction_plain hp]
  exact (serReaddata_reads ht.version).bind (first.bind (inputs.bind
    ((reads_pure (0, tx.vin)).bind ((serReaddata_reads ht.nLockTime).bind_last rfl))))

/-- **Transactions have one wire format.** A transaction with inputs, or with neither inputs nor
outputs, is read back from its bytes whatever follows them, and whatever is accepted is the bytes of
the transaction that is read. -/
theorem transaction_format_canonical : (∀ tx : CMutableTransaction, InTypes tx → Sized tx →
    (tx.vin ≠ [] ∨ tx.vin = [] ∧ tx.vout = []) →
    Reads (unserializeTransaction true) (serializeTransaction true tx) tx) ∧
  (∀ input tx rest, unserializeTransaction true input = .ok (tx, rest) →
    input = serializeTransaction true tx ++ rest) ∧
  ∀ first second tx, unserializeTransaction true first = .ok (tx, []) →
    unserializeTransaction true second = .ok (tx, []) → first = second := by
  refine ⟨fun tx types sized form => ?_, unserializeTransaction_canonical,
    fun first second tx => unserializeTransaction_canonical.unique⟩
  cases witness : hasWitness tx.vin with
  | true => exact unserializeTransaction_reads_witness types sized witness
  | false => exact unserializeTransaction_reads_plain types sized witness form

/-- A transaction with one input, which has a witness. -/
def witnessSpend : CMutableTransaction :=
  ⟨[⟨⟨5, 1⟩, [], 0xfffffffd, [[1, 2, 3]]⟩], [⟨1000, [0x51]⟩], 2, 0⟩

theorem transaction_format_canonical_witnessSpend :
  unserializeTransaction true (serializeTransaction true witnessSpend ++ [9])
    = .ok (witnessSpend, [9]) := by
  have types : InTypes witnessSpend := ⟨by decide, by decide, by decide, by unfold InInt64; decide⟩
  have sized : Sized witnessSpend := ⟨by decide, by decide, by decide, by decide⟩
  exact transaction_format_canonical.1 witnessSpend types sized (.inl (by decide)) [9]

/-- An input whose script is longer than any that is read. -/
def oversizedInput : CTxIn := ⟨⟨5, 1⟩, List.replicate (maxSize + 1) 0, 0, []⟩

theorem oversized_script_not_read : InTypes ⟨[oversizedInput], [], 2, 0⟩ ∧
    ∀ rest, unserializeTransaction true
      (serializeTransaction true ⟨[oversizedInput], [], 2, 0⟩ ++ rest)
        = .error "ReadCompactSize(): size too large" := by
  have types : InTypes ⟨[oversizedInput], [], 2, 0⟩ :=
    ⟨by decide, by decide, by simp [oversizedInput], by simp⟩
  refine ⟨types, fun rest => ?_⟩
  have length : oversizedInput.scriptSig.length = maxSize + 1 := length_replicate
  have script : ∀ rest, unserTxIn (serTxIn oversizedInput ++ rest)
    = .error "ReadCompactSize(): size too large" := by
    intro rest
    rw [unserTxIn, serTxIn, append_assoc, (unserOutPoint_reads (by decide)).bind_apply,
      append_assoc]
    refine bind_eq_error (unserBytes_too_large ?_ ?_ _) _
    · rw [length]
      decide
    · rw [length]
      decide
  have inputs : ∀ rest, unserVector unserTxIn (serVector serTxIn [oversizedInput] ++ rest)
    = .error "ReadCompactSize(): size too large" := by
    intro rest
    have one : [oversizedInput].length ≤ maxSize := by decide
    rw [unserVector, serVector, append_assoc, (readCompactSize_reads one).bind_apply,
      flatMap_cons, append_assoc]
    exact bind_eq_error (script _) _
  rw [unserializeTransaction, serializeTransaction_plain rfl, append_assoc,
    (serReaddata_reads types.version).bind_apply, append_assoc]
  exact bind_eq_error (inputs _) _

end TxSerialization
