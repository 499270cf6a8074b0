import Andaluzcoin.CoinsWorth
import Andaluzcoin.ConnectBlockSpec

/-!
# Supply conservation

A block that `ConnectBlock` accepts adds at most its subsidy to the worth of the
coins, whichever of its coins are overwritten, spent in the block or unspendable.
Along every run of the coins cache the value of all unspent coins is then at most
the sum of the subsidies, and no sum of amounts in the checks overflows.
-/

namespace Supply

open Transaction Coins CoinsInvariant CoinsFlush CoinsWorth Outcome TxVerify TxVerifySpec List
  Failure
open Option CoinsViewBottom
  ConnectBlock ConnectBlockSpec

lemma value_some {coin : Coin} (hr : moneyRange coin.out.nValue = true) :
  (value (some coin) : Int) = coin.out.nValue := by
  have := (moneyRange_iff.mp hr).1
  simp only [value, elim_some]
  omega

lemma Sound.same {v v' : CCoinsViewCache} {B : ℕ} (sound : Sound v.toView B)
  (hs : SameView false v v') : Sound v'.toView B :=
  sound.congr hs.valid hs.views hs.cacheFlags

lemma spendInputs_sound {v v' : CCoinsViewCache} {txins : List CTxIn} {coins : List Coin} {B : ℕ}
  (sound : Sound v.toView B) (nodup : (txins.map CTxIn.prevout).Nodup)
  (hp : ∀ txin ∈ txins, (v.peekCoin txin.prevout).isSome = true)
  (ok : spendInputs v txins = .ok (coins, v')) :
  ∃ B' : ℕ, Sound v'.toView B' ∧ (B' : Int) + totalIn (inputCoins v txins) = B := by
  induction txins generalizing v coins B with
  | nil =>
    cases ok
    exact ⟨B, sound, by simp [inputCoins, totalIn]⟩
  | cons txin rest ih =>
    simp only [map_cons, nodup_cons] at nodup
    obtain ⟨coin, hsh⟩ := isSome_iff_exists.mp (hp txin (.head _))
    obtain ⟨moved, spends⟩ := spendCoin_sound sound hsh
    have later : ∀ txin' ∈ rest, txin'.prevout ≠ txin.prevout := by
      intro txin' hm hs
      exact nodup.1 (hs ▸ mem_map_of_mem hm)
    set v₁ := (v.spendCoin txin.prevout).2 with hv₁
    have spent : v.spendCoin txin.prevout = (some coin, v₁) := Prod.ext moved rfl
    unfold spendInputs at ok
    rw [spent] at ok
    obtain ⟨⟨coins', v₂⟩, hor, ok⟩ := bind_eq_ok.mp ok
    cases ok
    obtain ⟨B', hs', total⟩ := ih spends.sound nodup.2 (fun txin' hm => by
      rw [spends.others _ (later txin' hm)]
      exact hp txin' (.tail _ hm)) hor
    have sameRest : inputCoins v₁ rest = inputCoins v rest := by
      simp only [inputCoins]
      apply map_congr_left
      intro txin' hm
      rw [spends.others _ (later txin' hm)]
    refine ⟨B', hs', ?_⟩
    have coinValue := value_some (sound.moneyRange hsh)
    have afford := spends.afford
    rw [sameRest] at total
    rw [inputCoins_cons, totalIn_cons, hsh, getD_some]
    omega

lemma addCoinsFrom_sound {tx : CTransaction} {nHeight i : ℕ} {v v' : CCoinsViewCache}
  {outs : List CTxOut} {B : ℕ} (sound : Sound v.toView B)
  (hr : ∀ out ∈ outs, moneyRange out.nValue = true)
  (ok : addCoinsFrom tx nHeight false v i outs = .ok v') :
  ∃ B' : ℕ, Sound v'.toView B' ∧ (B' : Int) = B + totalOut outs := by
  induction outs generalizing v i B with
  | nil =>
    cases ok
    exact ⟨B, sound, by simp [totalOut]⟩
  | cons out rest ih =>
    obtain ⟨v₁, added, hor⟩ := bind_eq_ok.mp ok
    have outRange := hr out (.head _)
    have sound₁ := addCoin_sound sound outRange (throwing_eq_ok.mp added)
    obtain ⟨B', hs', total⟩ := ih sound₁ (fun out' hm => hr out' (.tail _ hm)) hor
    refine ⟨B', hs', ?_⟩
    have coinValue : (value (some ⟨out, tx.isCoinBase, nHeight⟩) : Int) = out.nValue :=
      value_some outRange
    rw [totalOut_cons]
    push_cast at total
    omega

section
variable {checks : OtherChecks} {pindex : BlockPosition} {block : CBlock}
  {v v' view : CCoinsViewCache} {tx : CTransaction} {txundo : CTxUndo} {st st' : Connecting}
  {P : ConsensusParams} {txs : List CTransaction} {B i nHeight : ℕ}

lemma updateCoins_coinbase_sound (sound : Sound v.toView B) (hc : Checked tx)
  (hco : tx.isCoinBase = true) (ok : updateCoins tx v nHeight = .ok (txundo, v')) :
  ∃ B' : ℕ, Sound v'.toView B' ∧ (B' : Int) = B + totalOut tx.vout := by
  unfold updateCoins at ok
  rw [hco] at ok
  obtain ⟨⟨txundo', v₁⟩, start, ok⟩ := bind_eq_ok.mp ok
  cases start
  obtain ⟨v₂, added, ok⟩ := bind_eq_ok.mp ok
  cases ok
  exact addCoinsFrom_sound sound hc.outputs added

lemma updateCoins_sound (sound : Sound v.toView B) (hc : Checked tx) (hcb : tx.isCoinBase = false)
  (hp : ∀ txin ∈ tx.vin, (v.peekCoin txin.prevout).isSome = true)
  (ok : updateCoins tx v nHeight = .ok (txundo, v')) : ∃ B' : ℕ, Sound v'.toView B' ∧
    (B' : Int) + totalIn (inputCoins v tx.vin) = B + totalOut tx.vout := by
  unfold updateCoins at ok
  rw [hcb] at ok
  obtain ⟨⟨txundo', v₁⟩, spent, ok⟩ := bind_eq_ok.mp ok
  obtain ⟨v₂, added, ok⟩ := bind_eq_ok.mp ok
  cases ok
  obtain ⟨B₁, sound₁, total₁⟩ := spendInputs_sound sound hc.inputs hp spent
  obtain ⟨B₂, sound₂, total₂⟩ := addCoinsFrom_sound sound₁ hc.outputs added
  exact ⟨B₂, sound₂, by omega⟩

/-- A transaction with inputs moves its fee from the coins to the fees. -/
lemma connectTx_sound
  (sound : Sound st.view.toView B) (hch : Checked tx) (hcb : tx.isCoinBase = false)
  (ok : connectTx checks pindex i tx st = .ok st') : moneyRange st'.nFees = true ∧
    ∃ B' : ℕ, Sound st'.view.toView B' ∧ (B' : Int) + st'.nFees = B + st.nFees := by
  obtain ⟨txfee, txundo, hc⟩ := connectTx_eq_ok sound.valid hcb ok
  obtain ⟨v, inputs⟩ := hc.inputs
  obtain ⟨v₁, hs, updated⟩ := hc.updated
  obtain ⟨B', hs', total⟩ := updateCoins_sound (Sound.same sound hs) hch hcb
    (fun txin hm => by rw [hs.peekCoin]; exact inputs.present txin hm) updated
  refine ⟨hc.feesRange, B', hs', ?_⟩
  have fee := inputs.fee
  rw [inputCoins_congr hs] at total
  rw [hc.fees]
  omega

lemma connectTxs_sound (sound : Sound st.view.toView B) (hc : ∀ tx ∈ txs, Checked tx)
  (hcb : ∀ tx ∈ txs, tx.isCoinBase = false) (fees : moneyRange st.nFees = true)
  (ok : connectTxs checks pindex i st txs = .ok st') : moneyRange st'.nFees = true ∧
    ∃ B' : ℕ, Sound st'.view.toView B' ∧ (B' : Int) + st'.nFees = B + st.nFees := by
  induction txs generalizing i st B with
  | nil =>
    cases ok
    exact ⟨fees, B, sound, rfl⟩
  | cons tx rest ih =>
    obtain ⟨st₁, first, hl⟩ := bind_eq_ok.mp ok
    obtain ⟨fees₁, B₁, sound₁, total₁⟩ := connectTx_sound sound
      (hc tx (.head _)) (hcb tx (.head _)) first
    obtain ⟨fees₂, B₂, sound₂, total₂⟩ := ih sound₁ (fun tx' hm => hc tx' (.tail _ hm))
      (fun tx' hm => hcb tx' (.tail _ hm)) fees₁ hl
    exact ⟨fees₂, B₂, sound₂, by omega⟩

lemma getBlockSubsidy_range (P : ConsensusParams) (nHeight : ℕ) :
  0 ≤ getBlockSubsidy P nHeight ∧ getBlockSubsidy P nHeight ≤ 50 * coin := by
  unfold getBlockSubsidy
  dsimp only
  split
  · exact ⟨le_refl _, by decide⟩
  · have coins : (50 * coin : Int) = 5000000000 := by decide
    rw [coins]
    refine ⟨Int.ediv_nonneg (by omega) (Int.pow_nonneg (by decide)), Int.ediv_le_self _ (by omega)⟩

/-- What a block at a height may add to the supply; the genesis coinbase never enters it. -/
def minted (params : ConsensusParams) (nHeight : ℕ) : ℕ :=
  if nHeight = 0 then 0 else (getBlockSubsidy params nHeight).toNat

lemma connectBlock_sound {view' : CCoinsViewCache} {undo : List CTxUndo}
  (sound : Sound view.toView B) (ok : connectBlock P checks block pindex view = .ok (undo, view')) :
  Sound view'.toView (B + minted P pindex.nHeight) := by
  have subsidy := (getBlockSubsidy_range P pindex.nHeight).1
  rcases connectBlock_eq_ok sound.valid ok with ⟨-, -, hs⟩ | hc
  · exact (Sound.same sound hs).weaken (Nat.le_add_right _ _)
  obtain ⟨v₀, st, coinbase, rest, vtx, hs, loop, paid, -, rfl, -⟩ := hc.connected
  obtain ⟨tx, rest', vtx', isCoinBase, ho⟩ := hc.checked.coinbase
  obtain ⟨rfl, rfl⟩ : coinbase = tx ∧ rest = rest' := by simpa [vtx] using vtx'
  have checked := hc.checked.checked
  rw [vtx] at checked
  obtain ⟨st₁, first, hl⟩ := bind_eq_ok.mp loop
  obtain ⟨txundo, updated, fees₁, -⟩ := connectTx_coinbase isCoinBase first
  obtain ⟨B₁, sound₁, total₁⟩ := updateCoins_coinbase_sound (Sound.same sound hs)
    (checked coinbase (.head _)) isCoinBase updated
  obtain ⟨hfr, B₂, sound₂, total₂⟩ := connectTxs_sound sound₁
    (fun tx' hm => checked tx' (.tail _ hm)) ho
    (by rw [fees₁]; rfl) hl
  have best := setBestBlock_same sound₂.valid pindex.blockHash
  refine (Sound.same sound₂ best).weaken ?_
  have start : st₁.nFees = 0 := fees₁
  have height : pindex.nHeight ≠ 0 := by
    simpa [BlockPosition.nHeight] using hc.notGenesis
  rw [minted, if_neg height]
  omega

lemma addCoinsFrom_never (v : CCoinsViewCache) (outs : List CTxOut) :
  Never overflow (addCoinsFrom tx nHeight false v i outs) := by
  induction outs generalizing v i with
  | nil => exact never_ok _ _
  | cons out rest ih => exact never_bind (throwing_never _) fun v₁ _ => ih v₁

lemma spendInputs_never (v : CCoinsViewCache) (txins : List CTxIn) :
  Never overflow (spendInputs v txins) := by
  induction txins generalizing v with
  | nil => exact never_ok _ _
  | cons txin rest ih =>
    unfold spendInputs
    split
    · exact never_error (by simp)
    · exact never_bind (ih _) fun _ _ => never_ok _ _

lemma updateCoins_never (tx : CTransaction) (v : CCoinsViewCache) (nHeight : ℕ) :
  Never overflow (updateCoins tx v nHeight) := by
  unfold updateCoins
  refine never_bind ?_ fun r _ => ?_
  · split
    · exact never_ok _ _
    · exact spendInputs_never v tx.vin
  · exact never_bind (addCoinsFrom_never r.2 tx.vout) fun _ _ => never_ok _ _

section
variable (sound : Sound st.view.toView B)
include sound

lemma connectTx_never (fees : moneyRange st.nFees = true) :
  Never overflow (connectTx checks pindex i tx st) := by
  unfold connectTx
  refine never_bind ?_ fun st₁ _ => ?_
  · cases coinbase : tx.isCoinBase with
    | true => exact never_ok _ _
    | false =>
      refine never_bind (inBlock_never (checkTxInputs_never sound.valid
        (fun o coin hs => sound.moneyRange hs) coinbase)) fun r inputs => ?_
      obtain ⟨txfee, v⟩ := r
      have checked := checkTxInputs_eq_ok sound.valid coinbase (inBlock_eq_ok.mp inputs)
      have feeRange := moneyRange_iff.mp checked.feeRange
      have fees := moneyRange_iff.mp fees
      refine never_bind (addAmount_never (by omega) (by omega)) fun _ _ => ?_
      refine never_unless fun _ => ?_
      exact never_unless fun _ => never_ok _ _
  · refine never_unless fun _ => ?_
    refine never_bind (rejectFor_never _ _) fun _ _ => ?_
    exact never_bind (updateCoins_never _ _ _) fun _ _ => never_ok _ _

/-- A coinbase adds coins but no fees. -/
lemma connectTx_range (hc : Checked tx) (fees : moneyRange st.nFees = true)
  (ok : connectTx checks pindex i tx st = .ok st') :
  moneyRange st'.nFees = true ∧ ∃ B', Sound st'.view.toView B' := by
  cases coinbase : tx.isCoinBase with
  | true =>
    obtain ⟨txundo, updated, hs, -⟩ := connectTx_coinbase coinbase ok
    obtain ⟨B', hs', -⟩ := updateCoins_coinbase_sound sound hc coinbase updated
    exact ⟨by rwa [hs], B', hs'⟩
  | false =>
    obtain ⟨fees', B', hs', -⟩ := connectTx_sound sound hc coinbase ok
    exact ⟨fees', B', hs'⟩

variable (hc : ∀ tx ∈ txs, Checked tx) (fees : moneyRange st.nFees = true)
include hc fees

lemma connectTxs_never : Never overflow (connectTxs checks pindex i st txs) := by
  induction txs generalizing i st B with
  | nil => exact never_ok _ _
  | cons tx rest ih =>
    refine never_bind (connectTx_never sound fees) fun st₁ first => ?_
    obtain ⟨fees₁, B₁, sound₁⟩ := connectTx_range sound (hc tx (.head _)) fees first
    exact ih sound₁ (fun tx' hm => hc tx' (.tail tx hm)) fees₁

lemma connectTxs_fees (ok : connectTxs checks pindex i st txs = .ok st') :
  moneyRange st'.nFees = true := by
  induction txs generalizing i st B with
  | nil =>
    cases ok
    exact fees
  | cons tx rest ih =>
    obtain ⟨st₁, first, hl⟩ := bind_eq_ok.mp ok
    obtain ⟨fees₁, B₁, sound₁⟩ := connectTx_range sound (hc tx (.head _)) fees first
    exact ih sound₁ (fun tx' hm => hc tx' (.tail tx hm)) fees₁ hl

end

/-- No sum of amounts in `ConnectBlock` overflows on a sound view, whatever the block. -/
lemma connectBlock_never (sound : Sound view.toView B) :
  Never overflow (connectBlock P checks block pindex view) := by
  unfold connectBlock
  refine never_unless fun _ => ?_
  refine never_bind (never_mapError (e := overflow) (fun failure same => ?_)
    (checkBlock_never _ _ _)) fun _ checkedOk => ?_
  · unfold corruptBlock at same
    split at same
    · cases same
    · exact same
  have checked := (checkBlock_eq_ok (mapError_eq_ok.mp checkedOk)).checked
  refine never_unless fun _ => ?_
  have same := getBestBlock_same sound.valid
  split
  · exact never_ok _ _
  refine never_unless fun _ => ?_
  refine never_unless fun _ => ?_
  have soundStart : Sound (if enforcesBIP30 P pindex = true
    then haveAnyOutput view.getBestBlock.2 block.vtx
    else (false, view.getBestBlock.2)).2.toView B := by
    split
    · exact Sound.same sound (same.trans (haveAnyOutput_same same.valid block.vtx))
    · exact Sound.same sound same
  have zero : moneyRange 0 = true := by decide
  refine never_bind (connectTxs_never soundStart checked zero) fun st loop => ?_
  have fees := moneyRange_iff.mp (connectTxs_fees soundStart checked zero loop)
  have subsidy := getBlockSubsidy_range P pindex.nHeight
  have coins : (50 * coin : Int) ≤ maxMoney := by decide
  refine never_bind (addAmount_never (by omega) (by omega)) fun _ _ => ?_
  split
  · exact never_error (by simp)
  · refine never_bind (sumOutputs_never zero _) fun _ _ => ?_
    exact never_unless fun _ => never_ok _ _

end

variable {pindex : BlockPosition} {block : CBlock} {tip : CCoinsViewCache} {B : ℕ}

/-- The coins cache of the active chainstate and the blocks connected to it. -/
structure CoinsTip where
  hashes : List Uint256
  coins : CCoinsViewCache

/-- Connecting a block, and what else happens to the cache between blocks. -/
inductive Event where
  | connect (block : CBlock)
  | flush
  | sync
  | uncache (o : COutPoint)
  | getCoin (o : COutPoint)

def step (params : ConsensusParams) (checks : OtherChecks) (tip : CoinsTip) :
  Event → BlockCheck CoinsTip
  | .connect block => do
    let (_, coins) ← connectTip params checks block ⟨tip.hashes, block.hash⟩ tip.coins
    .ok ⟨tip.hashes ++ [block.hash], coins⟩
  | .flush => (throwing tip.coins.flush).map fun coins => { tip with coins }
  | .sync => (throwing tip.coins.sync).map fun coins => { tip with coins }
  | .uncache o => .ok { tip with coins := tip.coins.uncache o }
  | .getCoin o => .ok { tip with coins := (tip.coins.getCoin o).2 }

def run (params : ConsensusParams) (checks : OtherChecks) (tip : CoinsTip) :
  List Event → BlockCheck CoinsTip
  | [] => .ok tip
  | event :: rest => do
    let tip ← step params checks tip event
    run params checks tip rest

/-- No block connected, over an empty database. -/
def CoinsTip.initial : CoinsTip := ⟨[], ⟨CacheLayer.new false, .bottom new⟩⟩

/-- The height of the last connected block, zero before and at genesis. -/
def CoinsTip.height (tip : CoinsTip) : ℕ := tip.hashes.length - 1

def mintedUpTo (params : ConsensusParams) (blocks : ℕ) : ℕ :=
  ∑ h ∈ Finset.range blocks, minted params h

variable {P : ConsensusParams} {checks : OtherChecks}

lemma connectTip_sound {tip' : CCoinsViewCache} {undo : List CTxUndo} (sound : Sound tip.toView B)
  (ok : connectTip P checks block pindex tip = .ok (undo, tip')) :
  Sound tip'.toView (B + minted P pindex.nHeight) := by
  obtain ⟨⟨undo', view⟩, hc, ok⟩ := bind_eq_ok.mp ok
  obtain ⟨hfl, written, ok⟩ := bind_eq_ok.mp ok
  have overlay : Sound (CCoinsViewCache.mk (CacheLayer.new true) tip.toView).toView B :=
    sound.layered (layerValid_empty rfl rfl) fun o e hf => by cases hf
  have below := (flush_sound (connectBlock_sound overlay hc) (throwing_eq_ok.mp written)).1
  cases base : hfl.base with
  | bottom b =>
    simp only [base] at ok
    cases ok
  | cache l base' =>
    simp only [base] at ok
    cases ok
    rwa [base] at below

lemma uncache_sound {v : CCoinsViewCache} (sound : Sound v.toView B) (o : COutPoint) :
  Sound (v.uncache o).toView B := by
  have shows := uncache_shows sound.valid o
  refine sound.congr shows.valid shows.views ?_
  cases found : v.layer.entry o with
  | none => simp [CCoinsViewCache.uncache, CacheLayer.uncache, found]
  | some e =>
    cases dirty : e.dirty with
    | true => simp [CCoinsViewCache.uncache, CacheLayer.uncache, found, dirty]
    | false =>
      have entryValid := sound.valid.1.entries o e found
      have notFresh : e.fresh = false := by
        cases h : e.fresh with
        | false => rfl
        | true => simp [entryValid.fresh h] at dirty
      have erased : Replaced v.layer (v.uncache o).layer o none := by
        simp only [CCoinsViewCache.uncache, CacheLayer.uncache, found, dirty]
        exact replaced_erase rfl rfl
      refine congrArg (· :: cacheFlags v.base) (funext fun o' => ?_)
      unfold topDirty topFresh
      rw [erased.entry]
      by_cases hs : o' = o
      · subst hs
        simp [found, notFresh, dirty]
      · rw [Function.update_of_ne hs]

/-- The coins are worth no more than what the connected blocks could mint. -/
def TipSound (params : ConsensusParams) (tip : CoinsTip) : Prop :=
  Sound tip.coins.toView (mintedUpTo params tip.hashes.length)

lemma initial_sound : TipSound P CoinsTip.initial := by
  have empty : Sound (.bottom new) 0 := by
    refine ⟨trivial, ?_, fun S => ?_⟩
    · intro hs hm o coin hf
      obtain rfl := mem_singleton.mp hm
      simp [CoinsViewBottom.getCoin, new] at hf
    have none : ∀ o, worth (.bottom new) o = 0 := by
      intro o
      simp [worth, buried, CoinsView.peekCoin, CoinsViewBottom.getCoin, new]
    simp [none]
  exact empty.layered (layerValid_empty rfl rfl) fun o e hf => by cases hf

lemma step_sound {tip tip' : CoinsTip} {event : Event} (sound : TipSound P tip)
  (ok : step P checks tip event = .ok tip') : TipSound P tip' := by
  cases event with
  | connect block =>
    obtain ⟨⟨undo, coins⟩, hc, ok⟩ := bind_eq_ok.mp ok
    cases ok
    have grown := connectTip_sound sound hc
    simp only [TipSound, length_append, length_singleton, mintedUpTo]
    rw [Finset.sum_range_succ]
    exact grown
  | flush =>
    obtain ⟨coins, hf, rfl⟩ := map_eq_ok.mp ok
    exact (flush_sound sound (throwing_eq_ok.mp hf)).2
  | sync =>
    obtain ⟨coins, synced, rfl⟩ := map_eq_ok.mp ok
    exact sync_sound sound (throwing_eq_ok.mp synced)
  | uncache o =>
    cases ok
    exact uncache_sound sound o
  | getCoin o =>
    cases ok
    exact CoinsWorth.Sound.lookUp sound (cache_getCoin_looksUp sound.valid o)

lemma run_sound {tip tip' : CoinsTip} {events : List Event} (sound : TipSound P tip)
  (ok : run P checks tip events = .ok tip') : TipSound P tip' := by
  induction events generalizing tip with
  | nil =>
    cases ok
    exact sound
  | cons event rest ih =>
    obtain ⟨tip₁, first, hl⟩ := bind_eq_ok.mp ok
    exact ih (step_sound sound first) hl

/-- The outpoints a stack holds anything at. -/
def outpoints : CoinsView → Finset COutPoint
  | .bottom b => b.data.keys.toFinset
  | .cache l base => l.cacheCoins.keys.toFinset ∪ outpoints base

/-- The value of all unspent coins of a view. -/
def supply (v : CoinsView) : Int :=
  ∑ o ∈ outpoints v, (v.peekCoin o).elim 0 fun coin => coin.out.nValue

lemma supply_le {v : CoinsView} (sound : Sound v B) : supply v ≤ B := by
  have each : ∀ o ∈ outpoints v,
    ((v.peekCoin o).elim 0 fun coin => coin.out.nValue) ≤ (worth v o : Int) := by
    intro o _
    cases shown : v.peekCoin o with
    | none => simp
    | some coin =>
      have coinValue := value_some (sound.moneyRange shown)
      simp only [elim_some, worth, shown]
      omega
  calc supply v ≤ ∑ o ∈ outpoints v, (worth v o : Int) := Finset.sum_le_sum each
    _ = ((∑ o ∈ outpoints v, worth v o : ℕ) : Int) := (Nat.cast_sum _ _).symm
    _ ≤ B := by exact_mod_cast sound.bound (outpoints v)

lemma connectTip_never (sound : Sound tip.toView B) :
  Never overflow (connectTip P checks block pindex tip) := by
  have overlay : Sound (CCoinsViewCache.mk (CacheLayer.new true) tip.toView).toView B :=
    sound.layered (layerValid_empty rfl rfl) fun o e hf => by cases hf
  refine never_bind (connectBlock_never overlay) fun r _ => ?_
  refine never_bind (throwing_never _) fun hfl _ => ?_
  split
  · exact never_ok _ _
  · exact never_error (by simp)

lemma mintedUpTo_eq (P : ConsensusParams) (blocks : ℕ) :
  (mintedUpTo P blocks : Int) = ∑ h ∈ Finset.Icc 1 (blocks - 1), getBlockSubsidy P h := by
  induction blocks with
  | zero => rfl
  | succ n ih =>
    rw [mintedUpTo, Finset.sum_range_succ, Nat.cast_add, ← mintedUpTo, ih]
    cases n with
    | zero => simp [minted]
    | succ n =>
      have subsidy := (getBlockSubsidy_range P (n + 1)).1
      rw [Nat.add_sub_cancel, Nat.add_sub_cancel,
        Finset.sum_Icc_succ_top (Nat.le_add_left 1 n), minted, if_neg (Nat.succ_ne_zero n),
        Int.toNat_of_nonneg subsidy]

/-- The subsidy of each halving era. -/
def eraSubsidy (halvings : ℕ) : ℕ :=
  if halvings ≥ 64 then 0 else 5000000000 / 2 ^ halvings

lemma getBlockSubsidy_eq (P : ConsensusParams) (nHeight : ℕ) :
  getBlockSubsidy P nHeight = eraSubsidy (nHeight / P.nSubsidyHalvingInterval) := by
  have coins : (50 * coin : Int) = 5000000000 := by decide
  unfold getBlockSubsidy eraSubsidy
  dsimp only
  rw [coins]
  split <;> simp

lemma mintedUpTo_le_maxMoney {P : ConsensusParams}
  (hi : P.nSubsidyHalvingInterval = 210000) (blocks : ℕ) :
  (mintedUpTo P blocks : Int) ≤ maxMoney := by
  have each : ∀ h ∈ Finset.range blocks, minted P h ≤ eraSubsidy (h / 210000) := by
    intro h _
    unfold minted
    split
    · exact Nat.zero_le _
    · rw [getBlockSubsidy_eq, hi, Int.toNat_natCast]
  have vanishes : ∀ k, 64 ≤ k → eraSubsidy k = 0 := by
    intro k large
    simp [eraSubsidy, large]
  have total : 210000 * ∑ k ∈ Finset.range 64, eraSubsidy k ≤ 2100000000000000 := by
    decide +kernel
  have bound : mintedUpTo P blocks ≤ 2100000000000000 :=
    (Finset.sum_le_sum each).trans
      ((sum_range_div_le eraSubsidy (by decide) vanishes blocks).trans total)
  have range : maxMoney = 2100000000000000 := by decide
  omega

/-- Supply conservation: after any run the unspent coins are worth at most the subsidies of
the connected heights, hence at most `MAX_MONEY` with halvings every 210000 blocks, and no
sum of amounts overflows while the next block is checked. -/
theorem supply_conserved (params : ConsensusParams) (checks : OtherChecks) (events : List Event)
  (tip : CoinsTip) (reached : run params checks CoinsTip.initial events = .ok tip) :
  supply tip.coins.toView ≤ ∑ h ∈ Finset.Icc 1 tip.height, getBlockSubsidy params h ∧
  (params.nSubsidyHalvingInterval = 210000 → supply tip.coins.toView ≤ maxMoney) ∧
  ∀ block, step params checks tip (.connect block) ≠ .error .overflow := by
  have sound := run_sound initial_sound reached
  have bound := supply_le sound
  refine ⟨?_, fun interval => ?_, fun block => ?_⟩
  · rw [mintedUpTo_eq] at bound
    exact bound
  · exact bound.trans (mintedUpTo_le_maxMoney interval _)
  · exact never_bind (connectTip_never sound) fun _ _ => never_ok _ _

def mainParams : ConsensusParams := ⟨1, 210000, 227931, 0, false⟩

def coinbaseTx (txid : Txid) (nValue : Int) : CTransaction :=
  ⟨[⟨⟨0, COutPoint.nullIndex⟩, [0x51, 0x51], 0, []⟩], [⟨nValue, [0x51]⟩], 1, 0, txid, txid⟩

def sampleBlock (hash : Uint256) (nValue : Int) : CBlock :=
  ⟨hash, [coinbaseTx (hash + 100) nValue]⟩

/-- Genesis, a first block that claims its whole subsidy, and a flush to the database. -/
theorem supply_conserved_first_block : ∃ tip, run mainParams OtherChecks.passing CoinsTip.initial
      [.connect (sampleBlock 1 5000000000), .connect (sampleBlock 2 5000000000), .flush]
      = .ok tip ∧ supply tip.coins.toView = 5000000000 ∧ supply tip.coins.toView ≤ maxMoney := by
  refine ⟨_, rfl, by decide, (supply_conserved mainParams OtherChecks.passing
    [.connect (sampleBlock 1 5000000000), .connect (sampleBlock 2 5000000000), .flush] _ rfl).2.1
    rfl⟩

end Supply
