import Andaluzcoin.CoinsInvariant
import Andaluzcoin.TxVerify

/-!
# What the checks of one transaction guarantee

One specification for each check of `TxVerify`: what its success says about the
transaction and the coins it spends, that the view it read shows what it showed
before, and that none of its sums overflows as long as the coins are in range.
-/

namespace TxVerifySpec

open Transaction Coins CoinsInvariant Outcome TxVerify Failure Coin

variable {strict : Bool} {a b n : Int} {R : Type}

/-- `v'` is `v` after lookups: the same coins and flags at every depth. -/
structure SameView (strict : Bool) (v v' : CCoinsViewCache) : Prop where
  valid : Valid strict v'.toView
  views : views v'.toView = views v.toView
  cacheFlags : cacheFlags v'.toView = cacheFlags v.toView

open SameView

namespace SameView

variable {v v₁ v₂ : CCoinsViewCache}

lemma refl (hv : Valid strict v.toView) : SameView strict v v := ⟨hv, rfl, rfl⟩

lemma trans (first : SameView strict v v₁) (hs : SameView strict v₁ v₂) : SameView strict v v₂ :=
  ⟨hs.valid, hs.views.trans first.views, hs.cacheFlags.trans first.cacheFlags⟩

lemma peekCoin (hs : SameView strict v v₁) : v₁.peekCoin = v.peekCoin :=
  peekCoin_eq_of_views hs.views

lemma of_looksUp {α : Type*} {expected : α} {r : α × CCoinsViewCache}
  (hlu : LooksUp strict v.toView expected (r.1, r.2.toView)) : SameView strict v r.2 :=
  ⟨hlu.valid, hlu.views, hlu.cacheFlags⟩

end SameView

lemma moneyRange_iff : moneyRange n = true ↔ 0 ≤ n ∧ n ≤ maxMoney := by
  simp [moneyRange]

lemma inInt64_of_range (low : -maxMoney ≤ n) (hh : n ≤ 2 * maxMoney) : InInt64 n := by
  unfold InInt64
  have : maxMoney = 2100000000000000 := by decide
  omega

lemma addAmount_eq_ok {c : Int} : (addAmount a b : Except (Failure R) Int) = .ok c → c = a + b := by
  unfold addAmount
  split
  · intro h
    exact (Except.ok.inj h).symm
  · intro h
    cases h

lemma addAmount_never (low : -maxMoney ≤ a + b) (hh : a + b ≤ 2 * maxMoney) :
  Never overflow (addAmount a b : Except (Failure R) Int) := by
  unfold addAmount
  rw [if_pos (inInt64_of_range low hh)]
  exact never_ok _ _

/-- The sum of the outputs' values. -/
def totalOut (outs : List CTxOut) : Int := (outs.map CTxOut.nValue).sum

lemma totalOut_cons (out : CTxOut) (rest : List CTxOut) :
  totalOut (out :: rest) = out.nValue + totalOut rest := by
  simp [totalOut]

section
variable {R : Type} {acc : Int} {outs : List CTxOut}

lemma sumOutputs_eq_ok {total : Int}
  (ok : (sumOutputs acc outs : Except (Failure R) Int) = .ok total) :
  total = acc + totalOut outs ∧ (∀ out ∈ outs, moneyRange out.nValue = true) ∧
    (moneyRange acc = true → moneyRange total = true) := by
  induction outs generalizing acc with
  | nil =>
    cases ok
    simp [totalOut]
  | cons out rest ih =>
    obtain ⟨range, ok⟩ := unless_eq_ok.mp ok
    obtain ⟨sum, added, ok⟩ := bind_eq_ok.mp ok
    obtain ⟨sumRange, ok⟩ := unless_eq_ok.mp ok
    rw [Bool.not_eq_false'] at range sumRange
    obtain rfl := addAmount_eq_ok added
    obtain ⟨total_eq, ranges, totalRange⟩ := ih ok
    refine ⟨?_, ?_, fun _ => totalRange sumRange⟩
    · rw [total_eq, totalOut_cons]
      omega
    intro out' hm
    rcases List.mem_cons.mp hm with rfl | hl
    · exact range
    · exact ranges out' hl

lemma sumOutputs_never (accRange : moneyRange acc = true) (outs : List CTxOut) :
  Never overflow (sumOutputs acc outs : Except (Failure R) Int) := by
  induction outs generalizing acc with
  | nil => exact never_ok _ _
  | cons out rest ih =>
    refine never_unless fun range => ?_
    have range := moneyRange_iff.mp (by simpa using range)
    have accRange := moneyRange_iff.mp accRange
    refine never_bind (addAmount_never (by omega) (by omega)) fun sum _ => ?_
    exact never_unless fun sumRange => ih (by simpa using sumRange)

lemma checkOutputs_eq_ok (ok : checkOutputs acc outs = .ok ()) :
  ∀ out ∈ outs, moneyRange out.nValue = true := by
  induction outs generalizing acc with
  | nil => simp
  | cons out rest ih =>
    obtain ⟨negative, ok⟩ := unless_eq_ok.mp ok
    obtain ⟨tooLarge, ok⟩ := unless_eq_ok.mp ok
    obtain ⟨sum, -, ok⟩ := bind_eq_ok.mp ok
    obtain ⟨-, ok⟩ := unless_eq_ok.mp ok
    rw [decide_eq_false_iff_not] at negative tooLarge
    intro out' hm
    rcases List.mem_cons.mp hm with rfl | hl
    · exact moneyRange_iff.mpr ⟨by omega, by omega⟩
    · exact ih ok out' hl

lemma checkOutputs_never (accRange : moneyRange acc = true)
  (outs : List CTxOut) : Never overflow (checkOutputs acc outs) := by
  induction outs generalizing acc with
  | nil => exact never_ok _ _
  | cons out rest ih =>
    refine never_unless fun negative => ?_
    refine never_unless fun tooLarge => ?_
    rw [decide_eq_false_iff_not] at negative tooLarge
    have accRange := moneyRange_iff.mp accRange
    refine never_bind (addAmount_never (by omega) (by omega)) fun sum _ => ?_
    exact never_unless fun sumRange => ih (by simpa using sumRange)

end

/-- What `CheckTransaction` guarantees. -/
structure Checked (tx : CTransaction) : Prop where
  outputs : ∀ out ∈ tx.vout, moneyRange out.nValue = true
  inputs : (tx.vin.map CTxIn.prevout).Nodup

lemma checkTransaction_eq_ok {tx : CTransaction} (ok : checkTransaction tx = .ok ()) :
  Checked tx := by
  obtain ⟨-, -, ok⟩ := bind_eq_ok.mp ok
  obtain ⟨-, -, ok⟩ := bind_eq_ok.mp ok
  obtain ⟨-, -, ok⟩ := bind_eq_ok.mp ok
  obtain ⟨_, outputs, ok⟩ := bind_eq_ok.mp ok
  obtain ⟨nodup, -⟩ := unless_eq_ok.mp ok
  exact ⟨checkOutputs_eq_ok outputs, by simpa using nodup⟩

lemma checkTransaction_never (tx : CTransaction) : Never overflow (checkTransaction tx) := by
  refine never_unless fun _ => ?_
  refine never_unless fun _ => ?_
  refine never_unless fun _ => ?_
  refine never_bind (checkOutputs_never (by decide) _) fun _ _ => ?_
  refine never_unless fun _ => ?_
  split
  · exact never_failIf _ (by simp)
  · exact never_failIf _ (by simp)

variable {v : CCoinsViewCache} {v' : CCoinsViewCache} {tx : CTransaction} {acc : Int}
  {nSpendHeight : ℕ}

/-- The coins a view shows for a list of inputs, as `AccessCoin` returns them. -/
def inputCoins (v : CCoinsViewCache) (txins : List CTxIn) : List Coin :=
  txins.map fun txin => (v.peekCoin txin.prevout).getD Coin.empty

lemma inputCoins_congr (hs : SameView strict v v') : inputCoins v' = inputCoins v := by
  funext txins
  simp only [inputCoins, hs.peekCoin]

def totalIn (coins : List Coin) : Int := (coins.map fun coin => coin.out.nValue).sum

lemma inputCoins_cons (v : CCoinsViewCache) (txin : CTxIn) (rest : List CTxIn) :
  inputCoins v (txin :: rest) = (v.peekCoin txin.prevout).getD empty :: inputCoins v rest := rfl

lemma totalIn_cons (coin : Coin) (rest : List Coin) :
  totalIn (coin :: rest) = coin.out.nValue + totalIn rest := by
  simp [totalIn]

lemma haveInputsFrom_spec (hv : Valid strict v.toView) (txins : List CTxIn) :
  SameView strict v (haveInputsFrom v txins).2 ∧ ((haveInputsFrom v txins).1 = true →
      ∀ txin ∈ txins, (v.peekCoin txin.prevout).isSome = true) := by
  induction txins generalizing v with
  | nil => exact ⟨refl hv, by simp⟩
  | cons txin rest ih =>
    have looksUp := haveCoin_looksUp hv txin.prevout
    have same := of_looksUp looksUp
    obtain ⟨hsl, hl⟩ := ih same.valid
    unfold haveInputsFrom
    dsimp only
    split
    · next hp =>
      refine ⟨same.trans hsl, fun all txin' hm => ?_⟩
      rcases List.mem_cons.mp hm with rfl | hm
      · rw [← looksUp.answer]
        exact hp
      · rw [← same.peekCoin]
        exact hl all txin' hm
    · exact ⟨same, fun h => by cases h⟩

lemma sumInputs_eq_ok {total : Int} {txins : List CTxIn} (hv : Valid strict v.toView)
  (ok : sumInputs nSpendHeight v acc txins = .ok (total, v')) :
  SameView strict v v' ∧ total = acc + totalIn (inputCoins v txins) ∧
    (moneyRange acc = true → moneyRange total = true) := by
  induction txins generalizing v acc with
  | nil =>
    cases ok
    exact ⟨refl hv, by simp [inputCoins, totalIn], id⟩
  | cons txin rest ih =>
    have looksUp := accessCoin_looksUp hv txin.prevout
    have same := of_looksUp looksUp
    obtain ⟨-, ok⟩ := unless_eq_ok.mp ok
    obtain ⟨-, ok⟩ := unless_eq_ok.mp ok
    obtain ⟨sum, added, ok⟩ := bind_eq_ok.mp ok
    obtain ⟨ranges, ok⟩ := unless_eq_ok.mp ok
    obtain rfl := addAmount_eq_ok added
    rw [looksUp.answer] at ranges ok
    obtain ⟨hsl, total_eq, totalRange⟩ := ih same.valid ok
    rw [inputCoins_congr same] at total_eq
    rw [Bool.or_eq_false_iff, Bool.not_eq_false', Bool.not_eq_false'] at ranges
    refine ⟨same.trans hsl, ?_, fun _ => totalRange ranges.2⟩
    rw [total_eq, inputCoins_cons, totalIn_cons]
    omega

lemma sumInputs_never (accRange : moneyRange acc = true) (hv : Valid strict v.toView)
  (hr : ∀ o coin, v.peekCoin o = some coin → moneyRange coin.out.nValue = true)
  (txins : List CTxIn) : Never overflow (sumInputs nSpendHeight v acc txins) := by
  induction txins generalizing v acc with
  | nil => exact never_ok _ _
  | cons txin rest ih =>
    have looksUp := accessCoin_looksUp hv txin.prevout
    have same := of_looksUp looksUp
    refine never_unless fun notSpent => ?_
    refine never_unless fun _ => ?_
    rw [looksUp.answer] at notSpent
    have coinRange : moneyRange ((v.peekCoin txin.prevout).getD empty).out.nValue = true := by
      cases hs : v.peekCoin txin.prevout with
      | none => simp [hs] at notSpent
      | some coin => exact hr _ coin hs
    have coinRange := moneyRange_iff.mp coinRange
    have accRange := moneyRange_iff.mp accRange
    rw [looksUp.answer]
    refine never_bind (addAmount_never (by omega) (by omega)) fun sum _ => ?_
    refine never_unless fun ranges => ?_
    rw [Bool.or_eq_false_iff, Bool.not_eq_false', Bool.not_eq_false'] at ranges
    refine ih ranges.2 same.valid fun o coin hs => hr o coin ?_
    rwa [same.peekCoin] at hs

/-- What `CheckTxInputs` guarantees for a transaction that is not a coinbase. -/
structure InputsChecked (strict : Bool) (tx : CTransaction) (v : CCoinsViewCache)
  (txfee : Int) (v' : CCoinsViewCache) : Prop where
  same : SameView strict v v'
  present : ∀ txin ∈ tx.vin, (v.peekCoin txin.prevout).isSome = true
  fee : txfee + totalOut tx.vout = totalIn (inputCoins v tx.vin)
  feeRange : moneyRange txfee = true

lemma checkTxInputs_eq_ok {txfee : Int} (hv : Valid strict v.toView) (hcb : tx.isCoinBase = false)
  (ok : checkTxInputs tx v nSpendHeight = .ok (txfee, v')) :
  InputsChecked strict tx v txfee v' := by
  have looked : haveInputs v tx = haveInputsFrom v tx.vin := by simp [haveInputs, hcb]
  obtain ⟨hsh, hp⟩ := haveInputsFrom_spec hv tx.vin
  unfold checkTxInputs at ok
  rw [looked] at ok
  obtain ⟨have', ok⟩ := unless_eq_ok.mp ok
  obtain ⟨⟨nValueIn, v₁⟩, summed, ok⟩ := bind_eq_ok.mp ok
  obtain ⟨valueOut, out, ok⟩ := bind_eq_ok.mp ok
  obtain ⟨_, -, ok⟩ := bind_eq_ok.mp ok
  obtain ⟨fee, added, ok⟩ := bind_eq_ok.mp ok
  obtain ⟨feeRange, ok⟩ := unless_eq_ok.mp ok
  cases ok
  obtain ⟨sameSum, sumEq, -⟩ := sumInputs_eq_ok hsh.valid summed
  obtain ⟨outEq, -, -⟩ := sumOutputs_eq_ok out
  have feeEq := addAmount_eq_ok added
  rw [inputCoins_congr hsh] at sumEq
  refine ⟨hsh.trans sameSum, hp (by simpa using have'), ?_, by simpa using feeRange⟩
  omega

lemma checkTxInputs_never (hv : Valid strict v.toView)
  (inRange : ∀ o coin, v.peekCoin o = some coin → moneyRange coin.out.nValue = true)
  (hcb : tx.isCoinBase = false) : Never overflow (checkTxInputs tx v nSpendHeight) := by
  have looked : haveInputs v tx = haveInputsFrom v tx.vin := by simp [haveInputs, hcb]
  obtain ⟨hsh, -⟩ := haveInputsFrom_spec hv tx.vin
  unfold checkTxInputs
  rw [looked]
  refine never_unless fun _ => ?_
  refine never_bind (sumInputs_never (by decide) hsh.valid (fun o coin hs => ?_) _)
    fun r summed => ?_
  · exact inRange o coin (by rwa [hsh.peekCoin] at hs)
  obtain ⟨nValueIn, v₁⟩ := r
  have inRange := moneyRange_iff.mp ((sumInputs_eq_ok hsh.valid summed).2.2 (by decide))
  refine never_bind (sumOutputs_never (by decide) _) fun valueOut out => ?_
  have outRange := moneyRange_iff.mp ((sumOutputs_eq_ok out).2.2 (by decide))
  refine never_unless fun _ => ?_
  refine never_bind (addAmount_never (by omega) (by omega)) fun fee _ => ?_
  exact never_unless fun _ => never_ok _ _

end TxVerifySpec
