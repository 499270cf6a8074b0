import Mathlib

/-!
# Outpoints, outputs, transactions and coins

The data types of `primitives/transaction.h`, `consensus/amount.h` and the `Coin` of `coins.h`. A
transaction carries the hash the source keeps as a member, so nothing below assumes that distinct
transactions have distinct identifiers. A `CAmount` is an integer; every place where the source
could leave the `int64_t` range states the range it needs.
-/

namespace Transaction

abbrev Uint256 := BitVec 256
abbrev Txid := Uint256
abbrev CScript := List UInt8

def coin : Int := 100000000
def maxMoney : Int := 21000000 * coin

def moneyRange (nValue : Int) : Bool := 0 ≤ nValue && nValue ≤ maxMoney

/-- The values an `int64_t` can hold. -/
def InInt64 (n : Int) : Prop := -(2 ^ 63) ≤ n ∧ n < 2 ^ 63

structure COutPoint where
  hash : Txid
  n : ℕ
  deriving DecidableEq

namespace COutPoint

def nullIndex : ℕ := 0xffffffff

def isNull (o : COutPoint) : Bool := o.hash == 0 && o.n == nullIndex

end COutPoint

structure CTxIn where
  prevout : COutPoint
  scriptSig : CScript
  nSequence : ℕ
  scriptWitness : List (List UInt8)
  deriving DecidableEq

structure CTxOut where
  nValue : Int
  scriptPubKey : CScript
  deriving DecidableEq

def CTxOut.null : CTxOut := ⟨-1, []⟩

def CTxOut.isNull (out : CTxOut) : Bool := out.nValue == -1

structure CTransaction where
  vin : List CTxIn
  vout : List CTxOut
  version : ℕ
  nLockTime : ℕ
  hash : Txid
  witnessHash : Uint256
  deriving DecidableEq

def CTransaction.isCoinBase (tx : CTransaction) : Bool :=
  match tx.vin with
  | [txin] => txin.prevout.isNull
  | _ => false

def opReturn : UInt8 := 0x6a
def maxScriptSize : ℕ := 10000

/-- `CScript::IsUnspendable`: such outputs never enter the UTXO set. -/
def isUnspendable (script : CScript) : Bool :=
  script.head? == some opReturn || script.length > maxScriptSize

structure Coin where
  out : CTxOut
  fCoinBase : Bool
  nHeight : ℕ
  deriving DecidableEq

namespace Coin

/-- The default constructor, `coinEmpty`, and the result of `Clear`. -/
def empty : Coin := ⟨CTxOut.null, false, 0⟩

def isSpent (coin : Coin) : Bool := coin.out.isNull

@[simp] lemma empty_isSpent : empty.isSpent = true := rfl

end Coin

end Transaction
