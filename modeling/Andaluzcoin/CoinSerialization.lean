import Andaluzcoin.Serialize

/-!
# The storage of coins

`compressor.cpp` and the formats of a `Coin` in the coins database and in the undo data. Six forms
of scripts are written as a number below six and the bytes that vary, and any other script as its
size plus six and its bytes. The curve is a parameter.
-/

namespace CoinSerialization

open Transaction Script Serialize StreamReader List Opcode Nat

/-- The functions of `secp256k1` that a public key uses; a point is written uncompressed. -/
structure Secp256k1 (Point : Type) where
  ecPubkeyParse : Bytes → Option Point
  ecPubkeySerialize : Point → Bytes

section

/-- `CPubKey::GetLen`. -/
def getLen (chHeader : UInt8) : ℕ :=
  if chHeader = 2 ∨ chHeader = 3 then 33
  else if chHeader = 4 ∨ chHeader = 6 ∨ chHeader = 7 then 65
  else 0

/-- `CPubKey::Set`. A key is its bytes, and one that is not valid has none. -/
def setPubKey (bytes : Bytes) : Bytes :=
  let len := if bytes.isEmpty then 0 else getLen (bytes.getD 0 0)
  if len ≠ 0 ∧ len = bytes.length then bytes else []

variable {Point : Type} (secp : Secp256k1 Point)

def isFullyValid (pubkey : Bytes) : Bool :=
  !pubkey.isEmpty && (secp.ecPubkeyParse pubkey).isSome

/-- The key as an uncompressed one. -/
def decompress (pubkey : Bytes) : Option Bytes :=
  if pubkey.isEmpty then none
  else (secp.ecPubkeyParse pubkey).map fun point => setPubKey (secp.ecPubkeySerialize point)

end

section

def isToKeyID (script : CScript) : Option Bytes :=
  if script.length = 25 ∧ script.getD 0 0 = opDup.toByte ∧
      script.getD 1 0 = opHash160.toByte ∧ script.getD 2 0 = 20 ∧
      script.getD 23 0 = opEqualVerify.toByte ∧ script.getD 24 0 = opCheckSig.toByte
  then some ((script.drop 3).take 20)
  else none

def isToScriptID (script : CScript) : Option Bytes :=
  if script.length = 23 ∧ script.getD 0 0 = opHash160.toByte ∧ script.getD 1 0 = 20 ∧
      script.getD 22 0 = opEqual.toByte
  then some ((script.drop 2).take 20)
  else none

variable {Point : Type} (secp : Secp256k1 Point)

/-- A key that is not fully valid could not be compressed. -/
def isToPubKey (script : CScript) : Option Bytes :=
  if script.length = 35 ∧ script.getD 0 0 = 33 ∧ script.getD 34 0 = opCheckSig.toByte ∧
      (script.getD 1 0 = 0x02 ∨ script.getD 1 0 = 0x03)
  then some (setPubKey ((script.drop 1).take 33))
  else if script.length = 67 ∧ script.getD 0 0 = 65 ∧
      script.getD 66 0 = opCheckSig.toByte ∧ script.getD 1 0 = 0x04
  then
    let pubkey := setPubKey ((script.drop 1).take 65)
    if isFullyValid secp pubkey then some pubkey else none
  else none

def compressScript (script : CScript) : Option Bytes :=
  match isToKeyID script with
  | some keyID => some (0x00 :: keyID)
  | none =>
    match isToScriptID script with
    | some scriptID => some (0x01 :: scriptID)
    | none =>
      match isToPubKey secp script with
      | some pubkey =>
        let key := (pubkey.drop 1).take 32
        if pubkey.getD 0 0 = 0x02 ∨ pubkey.getD 0 0 = 0x03 then some (pubkey.getD 0 0 :: key)
        else if pubkey.getD 0 0 = 0x04 then some ((0x04 ||| (pubkey.getD 64 0 &&& 0x01)) :: key)
        else none
      | none => none

def getSpecialScriptSize (nSize : ℕ) : ℕ :=
  if nSize = 0 ∨ nSize = 1 then 20
  else if nSize = 2 ∨ nSize = 3 ∨ nSize = 4 ∨ nSize = 5 then 32
  else 0

/-- Whether the script could be restored, and the script, which stays as it was otherwise. An
assertion that does not hold is an error. -/
def decompressScript (script : CScript) (nSize : ℕ) (input : Bytes) :
  Except String (Bool × CScript) :=
  match nSize with
  | 0 => .ok (true, [opDup.toByte, opHash160.toByte, 20] ++ input.take 20 ++
      [opEqualVerify.toByte, opCheckSig.toByte])
  | 1 => .ok (true, [opHash160.toByte, 20] ++ input.take 20 ++ [opEqual.toByte])
  | 2 => .ok (true, [33, 2] ++ input.take 32 ++ [opCheckSig.toByte])
  | 3 => .ok (true, [33, 3] ++ input.take 32 ++ [opCheckSig.toByte])
  | 4 => restore 2
  | 5 => restore 3
  | _ => .ok (false, script)
where
  restore (header : UInt8) : Except String (Bool × CScript) :=
    match decompress secp (setPubKey (header :: input.take 32)) with
    | none => .ok (false, script)
    | some pubkey =>
      if pubkey.length ≠ 65 then .error "pubkey.size() == 65"
      else .ok (true, [65] ++ pubkey ++ [opCheckSig.toByte])

def nSpecialScripts : ℕ := 6

/-- `ScriptCompression::Ser`. -/
def serScript (script : CScript) : Bytes :=
  match compressScript secp script with
  | some compr => compr
  | none => writeVarInt 32 ((script.length + nSpecialScripts) % 2 ^ 32) ++ script

/-- `ScriptCompression::Unser`, into a script that is there already. A script that is too long is
replaced by a short one that is not valid. -/
def unserScript (script : CScript) : Stream CScript := do
  let nSize ← readVarInt 32
  if nSize < nSpecialScripts then
    let vch ← read (getSpecialScriptSize nSize)
    match decompressScript secp script nSize vch with
    | .error e => fail e
    | .ok restored => pure restored.2
  else if nSize - nSpecialScripts > maxScriptSize then
    ignore (nSize - nSpecialScripts)
    pure (script ++ [Transaction.opReturn])
  else read (nSize - nSpecialScripts)

end

/-- The loop of `CompressAmount`: divide by ten where nothing is lost, so often at most, and count
how often. -/
def stripZeros : ℕ → ℕ → ℕ × ℕ
  | 0, n => (n, 0)
  | left + 1, n =>
    if n % 10 = 0 then
      let stripped := stripZeros left (n / 10)
      (stripped.1, stripped.2 + 1)
    else (n, 0)

def compressAmount (n : ℕ) : ℕ :=
  if n = 0 then 0
  else
    let stripped := stripZeros 9 n
    let n := stripped.1
    let e := stripped.2
    if e < 9 then
      let d := n % 10
      (1 + (n / 10 * 9 + d - 1) * 10 + e) % 2 ^ 64
    else (1 + (n - 1) * 10 + 9) % 2 ^ 64

/-- The loop of `DecompressAmount`. -/
def appendZeros : ℕ → ℕ → ℕ
  | 0, n => n
  | e + 1, n => appendZeros e (n * 10 % 2 ^ 64)

def decompressAmount (x : ℕ) : ℕ :=
  if x = 0 then 0
  else
    let e := (x - 1) % 10
    let x := (x - 1) / 10
    if e < 9 then appendZeros e ((x / 9 * 10 + (x % 9 + 1)) % 2 ^ 64)
    else appendZeros e ((x + 1) % 2 ^ 64)

/-- `AmountCompression`. -/
def serAmount (nValue : ℤ) : Bytes := writeVarInt 64 (compressAmount (toUint64 nValue))

def unserAmount : Stream ℤ := do
  let v ← readVarInt 64
  pure (toInt64 (decompressAmount v))

section
variable {Point : Type} (secp : Secp256k1 Point)

/-- `TxOutCompression`. -/
def serTxOut (out : CTxOut) : Bytes := serAmount out.nValue ++ serScript secp out.scriptPubKey

def unserTxOut (out : CTxOut) : Stream CTxOut := do
  let nValue ← unserAmount
  let scriptPubKey ← unserScript secp out.scriptPubKey
  pure ⟨nValue, scriptPubKey⟩

/-- The height and whether the coin is of a coinbase, in one number. -/
def coinCode (coin : Coin) : ℕ := (coin.nHeight * 2 + if coin.fCoinBase then 1 else 0) % 2 ^ 32

/-- `Coin::Serialize`, which asserts that the coin is not spent. -/
def serializeCoin (coin : Coin) : Except String Bytes :=
  if coin.isSpent then .error "!IsSpent()"
  else .ok (writeVarInt 32 (coinCode coin) ++ serTxOut secp coin.out)

/-- `Coin::Unserialize`, into a coin that is there already. -/
def unserializeCoin (coin : Coin) : Stream Coin := do
  let code ← readVarInt 32
  let out ← unserTxOut secp coin.out
  pure ⟨out, code &&& 1 ≠ 0, code >>> 1⟩

/-- `TxInUndoFormatter::Ser`, which writes a byte for older versions. -/
def serTxInUndo (txout : Coin) : Bytes :=
  writeVarInt 32 (coinCode txout) ++ (if txout.nHeight > 0 then [0] else []) ++
    serTxOut secp txout.out

/-- The version that older versions stored for the last spend. -/
def unserVersionDummy (nHeight : ℕ) : Stream Unit :=
  if nHeight > 0 then do
    let _nVersionDummy ← readVarInt 32
    pure ()
  else pure ()

/-- `TxInUndoFormatter::Unser`. -/
def unserTxInUndo (txout : Coin) : Stream Coin := do
  let nCode ← readVarInt 32
  unserVersionDummy (nCode >>> 1)
  let out ← unserTxOut secp txout.out
  pure ⟨out, nCode &&& 1 ≠ 0, nCode >>> 1⟩

/-- `CTxUndo`, the coins a transaction spent. -/
def serTxUndo (vprevout : List Coin) : Bytes := serVector (serTxInUndo secp) vprevout

def unserTxUndo : Stream (List Coin) := unserVector (unserTxInUndo secp .empty)

/-- `CBlockUndo`. -/
def serBlockUndo (vtxundo : List (List Coin)) : Bytes := serVector (serTxUndo secp) vtxundo

def unserBlockUndo : Stream (List (List Coin)) := unserVector (unserTxUndo secp)

end

lemma stripZeros_spec (left n : ℕ) :
  (stripZeros left n).1 * 10 ^ (stripZeros left n).2 = n ∧ (stripZeros left n).2 ≤ left ∧
    ((stripZeros left n).2 < left → (stripZeros left n).1 % 10 ≠ 0) := by
  induction left generalizing n with
  | zero => simp [stripZeros]
  | succ left ih =>
    rw [stripZeros]
    split_ifs with divisible
    · obtain ⟨value, hb, last⟩ := ih (n / 10)
      refine ⟨?_, succ_le_succ hb, fun less => last (lt_of_succ_lt_succ less)⟩
      rw [pow_succ, ← mul_assoc, value]
      omega
    · exact ⟨by simp, zero_le _, fun _ => divisible⟩

lemma appendZeros_eq {e n : ℕ} (fits : n * 10 ^ e < 2 ^ 64) : appendZeros e n = n * 10 ^ e := by
  induction e generalizing n with
  | zero => simp [appendZeros]
  | succ e ih =>
    rw [pow_succ', ← mul_assoc] at fits
    have small : n * 10 < 2 ^ 64 :=
      (Nat.le_mul_of_pos_right _ (Nat.pow_pos (by decide))).trans_lt fits
    rw [appendZeros, Nat.mod_eq_of_lt small, ih fits, pow_succ', mul_assoc]

/-- Every amount up to all the money there is has its own compressed form. -/
lemma decompressAmount_compressAmount {n : ℕ} (le : n ≤ 21000000 * 100000000) :
  compressAmount n < 2 ^ 64 ∧ decompressAmount (compressAmount n) = n := by
  rw [compressAmount]
  by_cases hz : n = 0
  · rw [if_pos hz, hz]
    exact ⟨by decide, rfl⟩
  rw [if_neg hz]
  obtain ⟨value, hb, last⟩ := stripZeros_spec 9 n
  dsimp only
  generalize (stripZeros 9 n).1 = m, (stripZeros 9 n).2 = e at value hb last ⊢
  have less : m ≤ n := by
    rw [← value]
    exact Nat.le_mul_of_pos_right _ (Nat.pow_pos (by decide))
  have scaled : appendZeros e m = n := by
    rw [appendZeros_eq (by omega), value]
  have pos : m ≠ 0 := by
    rintro rfl
    omega
  split_ifs with nine
  · have digit := last nine
    have small : 1 + (m / 10 * 9 + m % 10 - 1) * 10 + e < 2 ^ 64 := by omega
    rw [mod_eq_of_lt small, decompressAmount, if_neg (by omega)]
    have exponent : (1 + (m / 10 * 9 + m % 10 - 1) * 10 + e - 1) % 10 = e := by omega
    have digits : (1 + (m / 10 * 9 + m % 10 - 1) * 10 + e - 1) / 10 = m / 10 * 9 + m % 10 - 1 := by
      omega
    have restored : ((m / 10 * 9 + m % 10 - 1) / 9 * 10 + ((m / 10 * 9 + m % 10 - 1) % 9 + 1))
      % 2 ^ 64 = m := by omega
    rw [exponent, digits, if_pos nine, restored]
    exact ⟨small, scaled⟩
  · have small : 1 + (m - 1) * 10 + 9 < 2 ^ 64 := by omega
    have all : e = 9 := by omega
    rw [mod_eq_of_lt small, decompressAmount, if_neg (by omega)]
    have exponent : (1 + (m - 1) * 10 + 9 - 1) % 10 = e := by omega
    have restored : ((1 + (m - 1) * 10 + 9 - 1) / 10 + 1) % 2 ^ 64 = m := by omega
    rw [exponent, if_neg nine, restored]
    exact ⟨small, scaled⟩

lemma unserAmount_reads {nValue : ℤ} (hr : 0 ≤ nValue) (hm : nValue ≤ maxMoney) :
  Reads unserAmount (serAmount nValue) nValue := by
  rw [maxMoney, coin] at hm
  have amount : toUint64 nValue ≤ 21000000 * 100000000 := by
    rw [toUint64]
    omega
  obtain ⟨hf, restored⟩ := decompressAmount_compressAmount amount
  refine (readVarInt_reads (by decide) hf).bind_last ?_
  rw [restored, toInt64_toUint64 (by omega) (by omega)]

section
variable {key pubkey : Bytes} {script : CScript} {header : UInt8}

/-- A script with a fixed front and a fixed back is the two around what lies between them. -/
lemma eq_frame {script front back : Bytes} {n : ℕ}
  (hl : script.length = front.length + n + back.length)
  (hs : ∀ i < front.length, script.getD i 0 = front.getD i 0)
  (ends : ∀ i < back.length, script.getD (front.length + n + i) 0 = back.getD i 0) :
  script = front ++ (script.drop front.length).take n ++ back := by
  have take : script.take front.length = front := by
    apply ext_getElem (by simp; omega)
    intro i inScript inFront
    have same := hs i inFront
    rw [getD_eq_getElem _ _ (by omega), getD_eq_getElem _ _ inFront] at same
    rw [getElem_take, same]
  have drop : script.drop (front.length + n) = back := by
    apply ext_getElem (by simp; omega)
    intro i inScript inBack
    have same := ends i inBack
    rw [getD_eq_getElem _ _ (by omega), getD_eq_getElem _ _ inBack] at same
    rw [getElem_drop, same]
  calc script = script.take front.length ++ script.drop front.length :=
        (take_append_drop _ _).symm
    _ = script.take front.length ++ ((script.drop front.length).take n
        ++ (script.drop front.length).drop n) := by rw [take_append_drop n]
    _ = front ++ (script.drop front.length).take n ++ back := by
        rw [take, drop_drop, drop, append_assoc]

lemma isToKeyID_spec {keyID : Bytes} (is : isToKeyID script = some keyID) :
  keyID.length = 20 ∧ script = [opDup.toByte, opHash160.toByte, 20] ++ keyID ++
    [opEqualVerify.toByte, opCheckSig.toByte] := by
  rw [isToKeyID] at is
  split_ifs at is with form
  cases is
  obtain ⟨hl, dup, hash, size, verify, checkSig⟩ := form
  refine ⟨by simp [hl], eq_frame hl ?_ ?_⟩
  · intro i lt
    rw [length_cons, length_cons, length_singleton] at lt
    interval_cases i
    exacts [dup, hash, size]
  · intro i lt
    rw [length_cons, length_singleton] at lt
    interval_cases i
    exacts [verify, checkSig]

lemma isToScriptID_spec {scriptID : Bytes} (is : isToScriptID script = some scriptID) :
  scriptID.length = 20 ∧ script = [opHash160.toByte, 20] ++ scriptID ++ [opEqual.toByte] := by
  rw [isToScriptID] at is
  split_ifs at is with form
  cases is
  obtain ⟨hl, hash, size, he⟩ := form
  refine ⟨by simp [hl], eq_frame hl ?_ ?_⟩
  · intro i lt
    rw [length_cons, length_singleton] at lt
    interval_cases i
    exacts [hash, size]
  · intro i lt
    rw [length_singleton] at lt
    interval_cases i
    exact he

lemma setPubKey_eq {bytes : Bytes} (size : getLen (bytes.getD 0 0) = bytes.length)
  (pos : 0 < bytes.length) : setPubKey bytes = bytes := by
  have some : bytes.isEmpty = false := by
    rw [isEmpty_eq_false_iff]
    exact ne_nil_of_length_pos pos
  rw [setPubKey, some]
  refine if_pos ⟨?_, size⟩
  rw [if_neg Bool.false_ne_true, size]
  omega

/-- The script that pays to a key. -/
def payToKey (pubkey : Bytes) : CScript :=
  [UInt8.ofNat pubkey.length] ++ pubkey ++ [opCheckSig.toByte]

lemma eq_payToKey (size : ℕ) (hl : script.length = size + 2)
  (first : script.getD 0 0 = UInt8.ofNat size)
  (last : script.getD (size + 1) 0 = opCheckSig.toByte) :
  ((script.drop 1).take size).length = size ∧ script = payToKey ((script.drop 1).take size) := by
  have taken : ((script.drop 1).take size).length = size := by
    rw [length_take, length_drop]
    omega
  refine ⟨taken, ?_⟩
  rw [payToKey, taken]
  refine eq_frame (by rw [hl, length_singleton, length_singleton]; omega) ?_ ?_
  · intro i lt
    rw [length_singleton] at lt
    interval_cases i
    exact first
  · intro i lt
    rw [length_singleton] at lt ⊢
    interval_cases i
    rw [add_zero, add_comm 1 size]
    exact last

variable {Point : Type} {secp : Secp256k1 Point}

lemma isToPubKey_spec (is : isToPubKey secp script = some pubkey) : script = payToKey pubkey ∧
    ((pubkey.length = 33 ∧ (pubkey.getD 0 0 = 2 ∨ pubkey.getD 0 0 = 3)) ∨
      (pubkey.length = 65 ∧ pubkey.getD 0 0 = 4 ∧ isFullyValid secp pubkey = true)) := by
  have header : ∀ size, 0 < size → ((script.drop 1).take size).getD 0 0 = script.getD 1 0 := by
    intro size pos
    simp [getD_eq_getElem?_getD, pos]
  rw [isToPubKey] at is
  split_ifs at is with compressed uncompressed
  · obtain ⟨hl, first, last, key⟩ := compressed
    obtain ⟨taken, form⟩ := eq_payToKey 33 hl first last
    rw [← header 33 (by decide)] at key
    have same := setPubKey_eq (by rw [taken, getLen, if_pos key]) (by omega)
    cases is
    rw [same]
    exact ⟨form, .inl ⟨taken, key⟩⟩
  obtain ⟨hl, first, last, key⟩ := uncompressed
  obtain ⟨taken, form⟩ := eq_payToKey 65 hl first last
  rw [← header 65 (by decide)] at key
  have same := setPubKey_eq (by rw [taken, getLen, key]; decide) (by omega)
  dsimp only at is
  rw [same] at is
  split_ifs at is with hv
  cases is
  exact ⟨form, .inr ⟨taken, key, hv⟩⟩

/-- The compressed form of an uncompressed key: the parity of its second half and its first half. -/
def compressedForm (pubkey : Bytes) : Bytes :=
  (0x02 ||| (pubkey.getD 64 0 &&& 0x01)) :: (pubkey.drop 1).take 32

variable (secp) in
/-- Decompressing the compressed form of a fully valid uncompressed key gives the key. -/
def DecompressesCompressed : Prop :=
  ∀ pubkey : Bytes, pubkey.length = 65 → pubkey.getD 0 0 = 0x04 → isFullyValid secp pubkey = true →
    decompress secp (compressedForm pubkey) = some pubkey

/-- A number and bytes that restore a script of a special form. -/
def Restores (secp : Secp256k1 Point) (script : CScript) (compr : Bytes) : Prop :=
  ∃ (nSize : ℕ) (vch : Bytes), nSize < nSpecialScripts ∧ compr = UInt8.ofNat nSize :: vch ∧
    vch.length = getSpecialScriptSize nSize ∧
    ∀ old, decompressScript secp old nSize vch = .ok (true, script)

lemma restores_compressed (hl : key.length = 32) (hc : header = 2 ∨ header = 3) :
  Restores secp (payToKey (header :: key)) (header :: key) := by
  have script : payToKey (header :: key) = [33, header] ++ key.take 32 ++ [opCheckSig.toByte] := by
    rw [payToKey, length_cons, hl, take_of_length_le hl.le]
    rfl
  rcases hc with rfl | rfl
  · exact ⟨2, key, by decide, rfl, hl, fun old => by rw [decompressScript, script]⟩
  · exact ⟨3, key, by decide, rfl, hl, fun old => by rw [decompressScript, script]⟩

lemma restore_eq (hl : key.length = 32) (hc : header = 2 ∨ header = 3) (size : pubkey.length = 65)
  (restored : decompress secp (header :: key) = some pubkey) (old : CScript) :
  decompressScript.restore secp old key header = .ok (true, payToKey pubkey) := by
  have set : setPubKey (header :: key.take 32) = header :: key := by
    rw [take_of_length_le hl.le]
    refine setPubKey_eq ?_ (succ_pos _)
    rw [length_cons, hl]
    exact if_pos hc
  rw [decompressScript.restore, set, restored, payToKey, size]
  exact if_neg (not_not.mpr size)

lemma and_one_eq (y : UInt8) : y &&& 1 = 0 ∨ y &&& 1 = 1 := by
  have bit : (y &&& 1).toNat = y.toNat % 2 := by
    rw [UInt8.toNat_and]
    exact and_one_is_mod _
  rcases mod_two_eq_zero_or_one y.toNat with even | odd
  · exact .inl (UInt8.toNat_inj.mp (bit.trans even))
  · exact .inr (UInt8.toNat_inj.mp (bit.trans odd))

variable (curve : DecompressesCompressed secp) {script : CScript}
include curve

lemma restores_uncompressed {pk : Bytes} (hl : pk.length = 65) (header : pk.getD 0 0 = 4)
  (hv : isFullyValid secp pk = true) :
  Restores secp (payToKey pk) ((0x04 ||| (pk.getD 64 0 &&& 0x01)) :: (pk.drop 1).take 32) := by
  have restored := curve pk hl header hv
  have key : ((pk.drop 1).take 32).length = 32 := by
    rw [length_take, length_drop, hl]
    decide
  rw [compressedForm] at restored
  rcases and_one_eq (pk.getD 64 0) with even | odd
  · rw [even] at restored ⊢
    exact ⟨4, _, by decide, rfl, key, restore_eq key (.inl rfl) hl restored⟩
  · rw [odd] at restored ⊢
    exact ⟨5, _, by decide, rfl, key, restore_eq key (.inr rfl) hl restored⟩

/-- What is written for a script of a special form, and that it restores the script. -/
lemma compressScript_spec {compr : Bytes}
  (hs : compressScript secp script = some compr) : Restores secp script compr := by
  rw [compressScript] at hs
  split at hs
  · next keyID is =>
    cases hs
    obtain ⟨hl, form⟩ := isToKeyID_spec is
    refine ⟨0, keyID, by decide, rfl, hl, fun old => ?_⟩
    rw [decompressScript, take_of_length_le hl.le, ← form]
  split at hs
  · next scriptID is =>
    cases hs
    obtain ⟨hl, form⟩ := isToScriptID_spec is
    refine ⟨1, scriptID, by decide, rfl, hl, fun old => ?_⟩
    rw [decompressScript, take_of_length_le hl.le, ← form]
  split at hs
  · next pubkey is =>
    obtain ⟨rfl, ⟨hl, header⟩ | ⟨hl, header, hv⟩⟩ := isToPubKey_spec is
    · obtain ⟨first, key, rfl⟩ := exists_cons_of_length_eq_add_one hl
      have whole := take_of_length_le (le_of_succ_le_succ hl.le)
      rw [if_pos header, drop_one, tail_cons, whole] at hs
      cases hs
      exact restores_compressed (succ_injective hl) header
    · dsimp only at hs
      rw [header, if_neg (by decide), if_pos rfl] at hs
      cases hs
      exact restores_uncompressed curve hl header hv
  · cases hs

lemma unserScript_reads (hs : script.length ≤ maxScriptSize) (old : CScript) :
  Reads (unserScript secp old) (serScript secp script) script := by
  rw [serScript]
  split
  · next compr special =>
    obtain ⟨nSize, vch, lt, rfl, hl, restored⟩ := compressScript_spec curve special
    have number : [UInt8.ofNat nSize] = writeVarInt 32 nSize := by
      rw [nSpecialScripts] at lt
      interval_cases nSize <;> rfl
    have fits : nSize < 2 ^ 32 := lt.trans (by decide)
    rw [← singleton_append, number]
    refine (readVarInt_reads (by decide) fits).bind ?_
    rw [if_pos lt]
    refine (reads_take _ hl).bind_last ?_
    rw [restored]
  · have size : script.length + nSpecialScripts < 2 ^ 32 := by
      rw [maxScriptSize] at hs
      rw [nSpecialScripts]
      omega
    rw [mod_eq_of_lt size]
    refine (readVarInt_reads (by decide) size).bind ?_
    rw [if_neg (by omega), Nat.add_sub_cancel, if_neg (not_lt.mpr hs)]
    exact reads_take _ rfl

end

variable {Point : Type} {secp : Secp256k1 Point} {coin : Coin}

/-- The coins that can be stored. -/
structure Storable (coin : Coin) : Prop where
  height : coin.nHeight < 2 ^ 31
  nonneg : 0 ≤ coin.out.nValue
  money : coin.out.nValue ≤ maxMoney
  script : coin.out.scriptPubKey.length ≤ maxScriptSize

lemma unserTxOut_reads (curve : DecompressesCompressed secp) (hs : Storable coin)
  (old : CTxOut) : Reads (unserTxOut secp old) (serTxOut secp coin.out) coin.out :=
  (unserAmount_reads hs.nonneg hs.money).bind
    ((unserScript_reads curve hs.script old.scriptPubKey).bind_last rfl)

lemma coinCode_spec (height : coin.nHeight < 2 ^ 31) :
  coinCode coin < 2 ^ 32 ∧ coinCode coin >>> 1 = coin.nHeight ∧
    decide (coinCode coin &&& 1 ≠ 0) = coin.fCoinBase := by
  rw [coinCode, shiftRight_eq_div_pow, and_one_is_mod]
  cases coin.fCoinBase with
  | false =>
    simp only [Bool.false_eq_true, if_false]
    refine ⟨by omega, by omega, decide_eq_false ?_⟩
    omega
  | true =>
    simp only [if_true]
    refine ⟨by omega, by omega, decide_eq_true ?_⟩
    omega

lemma unserializeCoin_reads (curve : DecompressesCompressed secp)
  (hs : Storable coin) (old : Coin) :
  Reads (unserializeCoin secp old) (writeVarInt 32 (coinCode coin) ++ serTxOut secp coin.out)
    coin := by
  obtain ⟨hf, height, coinbase⟩ := coinCode_spec hs.height
  refine (readVarInt_reads (by decide) hf).bind ((unserTxOut_reads curve hs old.out).bind_last ?_)
  rw [height, coinbase]

lemma unserVersionDummy_reads (nHeight : ℕ) :
  Reads (unserVersionDummy nHeight) (if nHeight > 0 then [0] else []) () := by
  rw [unserVersionDummy]
  split_ifs with hl
  · exact (readVarInt_reads (by decide) (n := 0) (by decide)).bind_last rfl
  · exact reads_pure ()

lemma unserTxInUndo_reads (curve : DecompressesCompressed secp) (hs : Storable coin) (old : Coin) :
  Reads (unserTxInUndo secp old) (serTxInUndo secp coin) coin := by
  obtain ⟨hf, height, coinbase⟩ := coinCode_spec hs.height
  rw [serTxInUndo, append_assoc]
  refine (readVarInt_reads (by decide) hf).bind ?_
  rw [height]
  refine (unserVersionDummy_reads coin.nHeight).bind ?_
  refine (unserTxOut_reads curve hs old.out).bind_last ?_
  rw [coinbase]

/-- **Coins are stored without loss.** A coin that can be stored is read back from the bytes of the
coins database and of the undo data, whatever follows them, and so is the undo data of a block. -/
theorem coin_storage_round_trip (curve : DecompressesCompressed secp) : (∀ coin, Storable coin →
    (∃ bytes, serializeCoin secp coin = .ok bytes ∧
      ∀ old, Reads (unserializeCoin secp old) bytes coin) ∧
    ∀ old, Reads (unserTxInUndo secp old) (serTxInUndo secp coin) coin) ∧
  ∀ vtxundo : List (List Coin), vtxundo.length ≤ maxSize →
    (∀ vprevout ∈ vtxundo, vprevout.length ≤ maxSize ∧ ∀ coin ∈ vprevout, Storable coin) →
    Reads (unserBlockUndo secp) (serBlockUndo secp vtxundo) vtxundo := by
  refine ⟨fun coin hs => ⟨?_, unserTxInUndo_reads curve hs⟩, ?_⟩
  · have unspent : ¬ coin.isSpent = true := by
      have := hs.nonneg
      rw [Coin.isSpent, CTxOut.isNull, beq_iff_eq]
      omega
    exact ⟨_, if_neg unspent, unserializeCoin_reads curve hs⟩
  · intro vtxundo blockSize txs
    refine unserVector_reads blockSize fun vprevout hm => ?_
    obtain ⟨txSize, hs⟩ := txs vprevout hm
    exact unserVector_reads txSize fun coin spent =>
      unserTxInUndo_reads curve (hs coin spent) .empty

def bigEndian (n : ℕ) : Bytes := (range 32).reverse.map fun i => UInt8.ofNat (n >>> (8 * i))

/-- The first coordinate of the generator of `secp256k1`. -/
def generatorX : Bytes :=
  bigEndian 0x79be667ef9dcbbac55a06295ce870b07029bfcdb2dce28d959f2815b16f81798

/-- The generator as an uncompressed key. Its second coordinate is even. -/
def generatorKey : Bytes := 4 :: (generatorX ++
  bigEndian 0x483ada7726a3c4655da4fbfc0e1108a8fd17b448a68554199c47d08ffb10d4b8)

/-- What `secp256k1` does with the generator, its only point here. -/
def generatorOnly : Secp256k1 Unit where
  ecPubkeyParse key := if key = generatorKey ∨ key = 2 :: generatorX then some () else none
  ecPubkeySerialize _ := generatorKey

lemma generatorOnly_decompresses : DecompressesCompressed generatorOnly := by
  intro pubkey hl header hv
  have parsed : (generatorOnly.ecPubkeyParse pubkey).isSome = true := (Bool.and_eq_true_iff.mp hv).2
  simp only [generatorOnly] at parsed
  split_ifs at parsed with point
  · rcases point with rfl | rfl
    · decide +kernel
    · cases hl
  · cases parsed

/-- A coin that pays to the generator as an uncompressed key. -/
def keyCoin : Coin := ⟨⟨5000000000, payToKey generatorKey⟩, true, 9⟩

theorem coin_storage_round_trip_keyCoin : ∃ bytes, serializeCoin generatorOnly keyCoin = .ok bytes ∧
    unserializeCoin generatorOnly .empty (bytes ++ [1, 2]) = .ok (keyCoin, [1, 2]) := by
  have storable : Storable keyCoin := ⟨by decide, by decide, by decide, by decide⟩
  obtain ⟨⟨bytes, written, read⟩, -⟩ :=
    (coin_storage_round_trip generatorOnly_decompresses).1 keyCoin storable
  exact ⟨bytes, written, read .empty [1, 2]⟩

end CoinSerialization
