import Andaluzcoin.Coins
import Andaluzcoin.Outcome

/-!
# Checks of one transaction

`CheckTransaction` of `consensus/tx_check.cpp` and `Consensus::CheckTxInputs` of
`consensus/tx_verify.cpp`, with `CTransaction::GetValueOut`. Every sum of amounts
goes through `addAmount`, which reports when an `int64_t` would overflow.
-/

namespace TxVerify

open Transaction Coins Outcome

inductive TxValidationResult where
  | consensus
  | missingInputs
  | prematureSpend
  deriving DecidableEq

/-- How a check can stop: by finding its subject invalid, or by ending the program. -/
inductive Failure (R : Type) where
  | invalid (result : R) (reason : String)
  | assertion (what : String)
  | logicError (error : CoinsError)
  | runtimeError (what : String)
  | overflow
  deriving DecidableEq

abbrev TxCheck := Except (Failure TxValidationResult)

instance (n : Int) : Decidable (InInt64 n) := inferInstanceAs (Decidable (_ ∧ _))

/-- Signed 64-bit addition, whose overflow is undefined behaviour. -/
def addAmount {R : Type} (a b : Int) : Except (Failure R) Int :=
  if InInt64 (a + b) then .ok (a + b) else .error .overflow

def maxBlockWeight : ℕ := 4000000
def witnessScaleFactor : ℕ := 4
def coinbaseMaturity : ℕ := 100

def getSizeOfCompactSize (n : ℕ) : ℕ :=
  if n < 253 then 1 else if n ≤ 0xffff then 3 else if n ≤ 0xffffffff then 5 else 9

def serializeSizeScript (script : CScript) : ℕ :=
  getSizeOfCompactSize script.length + script.length

/-- `GetSerializeSize(TX_NO_WITNESS(tx))`. -/
def serializeSizeNoWitness (tx : CTransaction) : ℕ :=
  4 + getSizeOfCompactSize tx.vin.length
    + (tx.vin.map fun txin => 36 + serializeSizeScript txin.scriptSig + 4).sum
    + getSizeOfCompactSize tx.vout.length
    + (tx.vout.map fun out => 8 + serializeSizeScript out.scriptPubKey).sum + 4

def sumOutputs {R : Type} (nValueOut : Int) : List CTxOut → Except (Failure R) Int
  | [] => .ok nValueOut
  | out :: rest => do
    failIf (!moneyRange out.nValue) (.runtimeError "GetValueOut: value out of range")
    let sum ← addAmount nValueOut out.nValue
    failIf (!moneyRange sum) (.runtimeError "GetValueOut: value out of range")
    sumOutputs sum rest

def getValueOut {R : Type} (tx : CTransaction) : Except (Failure R) Int :=
  sumOutputs 0 tx.vout

/-- The loop over the outputs in `CheckTransaction`. -/
def checkOutputs (nValueOut : Int) : List CTxOut → TxCheck Unit
  | [] => .ok ()
  | out :: rest => do
    failIf (out.nValue < 0) (.invalid .consensus "bad-txns-vout-negative")
    failIf (out.nValue > maxMoney) (.invalid .consensus "bad-txns-vout-toolarge")
    let sum ← addAmount nValueOut out.nValue
    failIf (!moneyRange sum) (.invalid .consensus "bad-txns-txouttotal-toolarge")
    checkOutputs sum rest

def checkTransaction (tx : CTransaction) : TxCheck Unit := do
  failIf tx.vin.isEmpty (.invalid .consensus "bad-txns-vin-empty")
  failIf tx.vout.isEmpty (.invalid .consensus "bad-txns-vout-empty")
  failIf (serializeSizeNoWitness tx * witnessScaleFactor > maxBlockWeight)
    (.invalid .consensus "bad-txns-oversize")
  checkOutputs 0 tx.vout
  failIf (¬ (tx.vin.map CTxIn.prevout).Nodup) (.invalid .consensus "bad-txns-inputs-duplicate")
  if tx.isCoinBase then
    failIf (tx.vin.any fun txin => txin.scriptSig.length < 2 || txin.scriptSig.length > 100)
      (.invalid .consensus "bad-cb-length")
  else
    failIf (tx.vin.any fun txin => txin.prevout.isNull)
      (.invalid .consensus "bad-txns-prevout-null")

def haveInputsFrom (v : CCoinsViewCache) : List CTxIn → Bool × CCoinsViewCache
  | [] => (true, v)
  | txin :: rest =>
    let r := v.haveCoin txin.prevout
    if r.1 then haveInputsFrom r.2 rest else (false, r.2)

def haveInputs (v : CCoinsViewCache) (tx : CTransaction) : Bool × CCoinsViewCache :=
  if tx.isCoinBase then (true, v) else haveInputsFrom v tx.vin

/-- The loop over the inputs in `CheckTxInputs`. -/
def sumInputs (nSpendHeight : ℕ) (v : CCoinsViewCache) (nValueIn : Int) :
  List CTxIn → TxCheck (Int × CCoinsViewCache)
  | [] => .ok (nValueIn, v)
  | txin :: rest => do
    let r := v.accessCoin txin.prevout
    failIf r.1.isSpent (.assertion "!coin.IsSpent()")
    failIf (r.1.fCoinBase && (nSpendHeight : Int) - r.1.nHeight < coinbaseMaturity)
      (.invalid .prematureSpend "bad-txns-premature-spend-of-coinbase")
    let sum ← addAmount nValueIn r.1.out.nValue
    failIf (!moneyRange r.1.out.nValue || !moneyRange sum)
      (.invalid .consensus "bad-txns-inputvalues-outofrange")
    sumInputs nSpendHeight r.2 sum rest

/-- On success the fee, and the view with the inputs cached. -/
def checkTxInputs (tx : CTransaction) (inputs : CCoinsViewCache) (nSpendHeight : ℕ) :
  TxCheck (Int × CCoinsViewCache) := do
  let r := haveInputs inputs tx
  failIf (!r.1) (.invalid .missingInputs "bad-txns-inputs-missingorspent")
  let (nValueIn, inputs) ← sumInputs nSpendHeight r.2 0 tx.vin
  let valueOut ← getValueOut tx
  failIf (nValueIn < valueOut) (.invalid .consensus "bad-txns-in-belowout")
  let txfee ← addAmount nValueIn (-valueOut)
  failIf (!moneyRange txfee) (.invalid .consensus "bad-txns-fee-outofrange")
  .ok (txfee, inputs)

end TxVerify
