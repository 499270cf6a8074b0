import Andaluzcoin.ConnectBlockSpec
import Andaluzcoin.DisconnectBlock
import Andaluzcoin.UtxoSet

/-!
# The coins cache performs the writes of a block

Each function that changes the coins of a view, for the forward pass of `ConnectBlock`,
for `DisconnectBlock` and for `RollforwardBlock`, performs on the top cache the list of
writes that the abstract reading of the block gives.
-/

namespace UtxoWrites

open Transaction Coins CoinsInvariant Outcome TxVerifySpec ConnectBlock ConnectBlockSpec
open CCoinsViewCache (peekCoin)
open DisconnectBlock LayeredMap UtxoSet List CCoinsViewCache

variable {v : CCoinsViewCache} {coin : Coin}

/-- The top layer changes by a list of writes; nothing below it changes. -/
structure Performs (v v' : CCoinsViewCache) (writes : Writes) : Prop where
  valid : Valid true v'.toView
  views : views v'.toView = apply v.peekCoin writes :: (views v.toView).tail

namespace Performs

variable {v v₁ v₂ : CCoinsViewCache} {writes writes' : Writes}

lemma peekCoin (hp : Performs v v₁ writes) : v₁.peekCoin = apply v.peekCoin writes := by
  have shown := hp.views
  rw [views_eq_cons] at shown
  exact (List.cons.inj shown).1

lemma below (hp : Performs v v₁ writes) :
  (CoinsInvariant.views v₁.toView).tail = (CoinsInvariant.views v.toView).tail := by
  rw [hp.views]
  rfl

lemma trans (first : Performs v v₁ writes) (hs : Performs v₁ v₂ writes') :
  Performs v v₂ (writes ++ writes') := by
  refine ⟨hs.valid, ?_⟩
  rw [hs.views, first.peekCoin, first.below, apply_append]

lemma of_same (hs : SameView true v v₁) : Performs v v₁ [] := by
  refine ⟨hs.valid, ?_⟩
  rw [hs.views]
  exact views_eq_cons v.toView

lemma after_same (hs : SameView true v v₁) (hp : Performs v₁ v₂ writes) : Performs v v₂ writes :=
  (of_same hs).trans hp

lemma before_same (hp : Performs v v₁ writes) (hs : SameView true v₁ v₂) :
  Performs v v₂ writes := by
  have both := hp.trans (of_same hs)
  rwa [append_nil] at both

end Performs

lemma spendCoin_performs (hv : Valid true v.toView) (o : COutPoint) :
  Performs v (v.spendCoin o).2 [(o, none)] := by
  obtain ⟨-, -, spentValid, hs⟩ := spendCoin_shows hv o
  exact ⟨spentValid, hs⟩

lemma addCoin_performs (hv : Valid true v.toView) (o : COutPoint) (unspent : coin.isSpent = false)
  (hsp : isUnspendable coin.out.scriptPubKey = false) {possibleOverwrite : Bool}
  (ha : possibleOverwrite = false → v.peekCoin o = none) :
  ∃ v', v.addCoin o coin possibleOverwrite = .ok v' ∧ Performs v v' [(o, some coin)] := by
  obtain ⟨v', ok, hs⟩ := addCoin_shows hv o unspent ha
  refine ⟨v', ok, hs.valid, ?_⟩
  rw [hs.views, added, hsp]
  rfl

lemma addCoin_unspendable (o : COutPoint)
  (unspent : coin.isSpent = false) (hu : isUnspendable coin.out.scriptPubKey = true)
  (possibleOverwrite : Bool) : v.addCoin o coin possibleOverwrite = .ok v := by
  simp [addCoin, CacheLayer.addCoin, unspent, hu, Except.map]

lemma haveCoin_same (hv : Valid true v.toView) (o : COutPoint) :
  SameView true v (v.haveCoin o).2 ∧ (v.haveCoin o).1 = (v.peekCoin o).isSome ∧
    ((v.haveCoin o).1 = false → (v.haveCoin o).2.peekCoin o = none) := by
  have looksUp := haveCoin_looksUp hv o
  have same := SameView.of_looksUp looksUp
  have present := looksUp.answer
  refine ⟨same, present, fun hm => ?_⟩
  rw [same.peekCoin, ← Option.not_isSome_iff_eq_none, ← present, hm]
  exact Bool.false_ne_true

section
variable {v : CCoinsViewCache} {p : COutPoint × Coin} {undone : UndoneTx} {nHeight : ℕ}

/-- `ApplyTxInUndo` restores a coin that carries its height, and reports an overwrite. -/
lemma applyTxInUndo_performs (hv : Valid true v.toView) (o : COutPoint)
  {undo : Coin} (hr : Restorable undo) :
  ∃ v', applyTxInUndo undo v o = .ok (if (v.peekCoin o).isSome then .unclean else .ok, v') ∧
    Performs v v' [(o, some undo)] := by
  obtain ⟨hs, hpr, ha⟩ := haveCoin_same hv o
  obtain ⟨v', ok, hp⟩ := addCoin_performs hs.valid o hr.unspent hr.spendable ha
  refine ⟨v', ?_, .after_same hs hp⟩
  rw [hpr] at ok
  simp [applyTxInUndo, hr.height, hpr, ok, Except.map]

/-- The entries that `restoreInputs` puts back. -/
def restored (inputs : List (CTxIn × Coin)) : List (COutPoint × Coin) :=
  inputs.map fun p => (p.1.prevout, p.2)

lemma restoreInputs_performs {inputs : List (CTxIn × Coin)}
  (hv : Valid true v.toView) (hr : ∀ p ∈ inputs, Restorable p.2) :
  ∃ result v', restoreInputs v inputs = .ok (result, v') ∧ result ≠ .failed ∧
    Performs v v' (puts (restored inputs)) ∧
    (((restored inputs).map Prod.fst).Nodup → (∀ p ∈ restored inputs, v.peekCoin p.1 = none) →
      result = .ok) := by
  induction inputs generalizing v with
  | nil => exact ⟨.ok, v, rfl, by simp, .of_same (.refl hv), fun _ _ => rfl⟩
  | cons p rest ih =>
    obtain ⟨txin, undo⟩ := p
    obtain ⟨v₁, ok, hp⟩ := applyTxInUndo_performs hv txin.prevout (hr _ (.head _))
    obtain ⟨result, v₂, hor, hf, hpr, hc⟩ := ih hp.valid fun p hm => hr p (.tail _ hm)
    have first : (if (v.peekCoin txin.prevout).isSome then DisconnectResult.unclean else .ok)
      ≠ .failed := by
      split <;> simp
    refine ⟨if (if (v.peekCoin txin.prevout).isSome then DisconnectResult.unclean else .ok)
        = .unclean then .unclean else result, v₂, ?_, ?_, hp.trans hpr, ?_⟩
    · simp only [restoreInputs, ok, hor, bind, Except.bind]
      rw [if_neg first, if_neg hf]
    · split
      · simp
      · exact hf
    · intro nodup ha
      have nodup : txin.prevout ∉ (restored rest).map Prod.fst ∧
        ((restored rest).map Prod.fst).Nodup := nodup_cons.mp nodup
      have here : v.peekCoin txin.prevout = none := ha _ (.head _)
      have later : ∀ p ∈ restored rest, v₁.peekCoin p.1 = none := by
        intro p hm
        have other : p.1 ≠ txin.prevout := by
          intro hs
          exact nodup.1 (hs ▸ mem_map_of_mem hm)
        rw [hp.peekCoin, apply_of_notMem (by simpa using other)]
        exact ha p (.tail _ hm)
      rw [hc nodup.2 later, here]
      simp

/-- Removing outputs is clean when the coins are there as the transaction made them. -/
lemma removeOutputsFrom_performs (tx : CTransaction) (nHeight i : ℕ) (outs : List CTxOut)
  (hv : Valid true v.toView) :
  Performs v (removeOutputsFrom tx nHeight v i outs).2 (takes (createdFrom tx nHeight i outs)) ∧
    ((∀ p ∈ createdFrom tx nHeight i outs, v.peekCoin p.1 = some p.2) →
      (removeOutputsFrom tx nHeight v i outs).1 = true) := by
  induction outs generalizing v i with
  | nil => exact ⟨.of_same (.refl hv), fun _ => rfl⟩
  | cons out rest ih =>
    cases unspendable : isUnspendable out.scriptPubKey with
    | true =>
      simp only [removeOutputsFrom, createdFrom, unspendable]
      exact ih (i + 1) hv
    | false =>
      have performs := spendCoin_performs hv ⟨tx.hash, i⟩
      obtain ⟨hpr, hc⟩ := ih (i + 1) performs.valid
      simp only [removeOutputsFrom, createdFrom, unspendable, Bool.false_eq_true, if_false]
      refine ⟨performs.trans hpr, fun held => ?_⟩
      obtain ⟨-, moved, -, -⟩ := spendCoin_shows hv ⟨tx.hash, i⟩
      have here := moved _ (held _ (.head _))
      have later : ∀ p ∈ createdFrom tx nHeight (i + 1) rest,
        (v.spendCoin ⟨tx.hash, i⟩).2.peekCoin p.1 = some p.2 := by
        intro p hm
        rw [performs.peekCoin, apply_of_notMem (by simpa using createdFrom_ne hm)]
        exact held p (.tail _ hm)
      simp [here, hc later]

/-- The undo data fits the transaction and its coins can be restored. -/
structure Undoable (undone : UndoneTx) : Prop where
  shaped : Shaped undone
  restorable : ∀ p ∈ taken undone, Restorable p.2

lemma restored_zip (txins : List CTxIn) (coins : List Coin) :
  restored (txins.zip coins).reverse = ((prevouts txins).zip coins).reverse := by
  rw [restored, prevouts, map_reverse, zip_map_left]
  rfl

/-- Removing what a transaction created leaves nothing at the outpoints it spent. -/
lemma taken_absent {bip30 : Bool} {u : Utxo}
  (connects : TxConnects bip30 nHeight u undone) (hm : p ∈ taken undone) :
  apply (apply u (txWrites nHeight undone.1)) (takes (created undone.1 nHeight)) p.1 = none := by
  have isSpent : p.1 ∈ spent undone.1 := by
    rw [← connects.shaped.keys]
    exact mem_map_of_mem hm
  by_cases hc : p.1 ∈ (created undone.1 nHeight).map Prod.fst
  · exact apply_takes hc
  · rw [apply_of_notMem (by rwa [takes_keys]), txWrites, apply_append,
      apply_of_notMem (by rwa [puts_keys])]
    exact apply_spends isSpent

lemma created_held (u : Utxo) {tx : CTransaction}
  (hm : p ∈ created tx nHeight) : apply u (txWrites nHeight tx) p.1 = some p.2 := by
  rw [txWrites, apply_append]
  exact apply_puts (createdFrom_nodup _) hm

variable (pindex : BlockPosition)
include pindex

/-- One iteration of `DisconnectBlock`; it is clean right after the transaction was
connected. -/
lemma disconnectTx_performs (hv : Valid true v.toView) (undoable : Undoable undone) :
  ∃ result v', disconnectTx pindex undone.1 undone.2 v = .ok (result, v') ∧ result ≠ .failed ∧
    Performs v v' (txUndoWrites pindex.nHeight undone) ∧
    (∀ u, TxConnects true pindex.nHeight u undone →
      v.peekCoin = apply u (txWrites pindex.nHeight undone.1) → result = .ok) := by
  obtain ⟨tx, txundo⟩ := undone
  obtain ⟨removes, allThere⟩ := removeOutputsFrom_performs tx pindex.nHeight 0 tx.vout hv
  have clean : ∀ u, TxConnects true pindex.nHeight u (tx, txundo) →
    v.peekCoin = apply u (txWrites pindex.nHeight tx) →
    (removeOutputsFrom tx pindex.nHeight v 0 tx.vout).1 = true := by
    intro u connects hs
    refine allThere fun p hm => ?_
    rw [hs]
    exact created_held u hm
  set removed := removeOutputsFrom tx pindex.nHeight v 0 tx.vout with hremoved
  set first : DisconnectResult :=
    if removed.1 || (tx.isCoinBase && isBIP30Unspendable pindex) then .ok else .unclean with hfirst
  have firstNotFailed : first ≠ .failed := by
    rw [hfirst]
    split <;> simp
  cases txundo with
  | none =>
    refine ⟨first, removed.2, rfl, firstNotFailed, ?_, fun u connects hs => ?_⟩
    · simpa [txUndoWrites, taken, puts, created] using removes
    · simp [hfirst, clean u connects hs]
  | some coins =>
    have restorable : ∀ p ∈ (tx.vin.zip coins).reverse, Restorable p.2 := by
      intro p hm
      have both := mem_reverse.mp hm
      refine undoable.restorable (p.1.prevout, p.2) ?_
      rw [taken, prevouts, zip_map_left]
      exact mem_map_of_mem both
    obtain ⟨result, v', ok, hf, restores, hrc⟩ := restoreInputs_performs removes.valid restorable
    rw [restored_zip] at restores hrc
    have length := undoable.shaped.2
    refine ⟨if first = .unclean then .unclean else result, v', ?_, ?_, ?_, ?_⟩
    · simp only [disconnectTx, ← hremoved, ← hfirst, length, ne_eq, not_true_eq_false, if_false, ok,
        Except.map, hf]
    · split
      · simp
      · exact hf
    · exact removes.trans restores
    · intro u connects hs
      have firstOk : first = .ok := by simp [hfirst, clean u connects hs]
      rw [firstOk, hrc ?_ ?_]
      · rfl
      · rw [map_reverse, nodup_reverse]
        have keys := connects.shaped.keys
        rw [taken] at keys
        rw [keys]
        exact connects.nodup
      · intro p hm
        rw [removes.peekCoin, hs]
        exact taken_absent connects (mem_reverse.mp hm)

/-- The loop of `DisconnectBlock`, over the transactions in the order it takes them. -/
lemma disconnectTxs_performs {undone : List UndoneTx}
  (hv : Valid true v.toView) (undoable : ∀ p ∈ undone, Undoable p) :
  ∃ result v', disconnectTxs pindex v undone = .ok (result, v') ∧ result ≠ .failed ∧
    Performs v v' (undone.flatMap (txUndoWrites pindex.nHeight)) ∧
    (∀ u, Connects true pindex.nHeight u undone.reverse →
      v.peekCoin = apply u (blockWrites pindex.nHeight (undone.reverse.map Prod.fst)) →
      result = .ok) := by
  induction undone generalizing v with
  | nil => exact ⟨.ok, v, rfl, by simp, .of_same (.refl hv), fun _ _ _ => rfl⟩
  | cons last rest ih =>
    obtain ⟨result, v₁, ok, hf, hp, hc⟩ := disconnectTx_performs pindex hv (undoable last (.head _))
    obtain ⟨hl, v₂, hor, hlnf, hpr, cleanRest⟩ := ih hp.valid fun p hm => undoable p (.tail _ hm)
    refine ⟨if result = .unclean then .unclean else hl, v₂, ?_, ?_, hp.trans hpr, ?_⟩
    · simp only [disconnectTxs, ok, hor, bind, Except.bind, hf, hlnf, if_false]
    · split
      · simp
      · exact hlnf
    · intro u connects hs
      rw [reverse_cons] at connects hs
      obtain ⟨hcr, connectsLast⟩ := connects_append.mp connects
      have atLast : v.peekCoin = apply (apply u (blockWrites pindex.nHeight
        (rest.reverse.map Prod.fst))) (txWrites pindex.nHeight last.1) := by
        rw [hs, ← apply_append]
        simp [blockWrites]
      have undoneLast : v₁.peekCoin
        = apply u (blockWrites pindex.nHeight (rest.reverse.map Prod.fst)) := by
        rw [hp.peekCoin, atLast]
        exact connectsLast.1.undo
      rw [hc _ connectsLast.1 atLast, cleanRest u hcr undoneLast]
      rfl

lemma disconnectBlock_performs {block : CBlock} {blockUndo : List CTxUndo}
  (hv : Valid true v.toView) (hl : blockUndo.length + 1 = block.vtx.length)
  (undoable : ∀ p ∈ undoneTxs block blockUndo, Undoable p) :
  ∃ result v', disconnectBlock block blockUndo pindex v = .ok (result, v') ∧ result ≠ .failed ∧
    Performs v v' (blockUndoWrites pindex.nHeight (undoneTxs block blockUndo)) ∧
    (∀ u, Connects true pindex.nHeight u (undoneTxs block blockUndo) →
      v.peekCoin = apply u (blockWrites pindex.nHeight block.vtx) → result = .ok) ∧
    v'.layer.hashBlock = pindex.prevHash := by
  obtain ⟨result, v₁, ok, hf, hp, hc⟩ :=
    disconnectTxs_performs pindex hv fun p hm => undoable p (mem_reverse.mp hm)
  refine ⟨result, v₁.setBestBlock pindex.prevHash, ?_, hf,
    hp.before_same (setBestBlock_same hp.valid _), ?_, rfl⟩
  · rw [undoneTxs] at ok
    rw [disconnectBlock, if_neg (by omega)]
    simp only [ok, Except.map, hf, if_false]
  intro u connects hs
  refine hc u ?_ ?_
  · rwa [reverse_reverse]
  · rwa [reverse_reverse, undoneTxs_fst hl]

end

section
variable {l : CacheLayer}

/-- An outpoint where nothing lies below that the top layer has not overwritten. -/
def Settled (v : CCoinsViewCache) (o : COutPoint) : Prop :=
  topDirty v.layer o = false → v.base.peekCoin o = none

variable {v v' : CCoinsViewCache} {o o' : COutPoint}

lemma settled_of_absent (hv : Valid true v.toView) (ha : v.peekCoin o = none) : Settled v o := by
  intro hd
  cases found : v.layer.entry o with
  | none =>
    rwa [peekCoin, toView, peekCoin_of_no_entry _ _ _ found] at ha
  | some e =>
    have clean : e.dirty = false := by simpa [topDirty, found] using hd
    have below := (hv.1.entries o e found).clean clean
    have unspent := peekCoin_unspent v.base o below
    rw [peekCoin, toView, peekCoin_of_entry _ _ _ found, unspent_of_not_isSpent unspent] at ha
    cases ha

lemma Settled.same (hs : SameView true v v') (hse : Settled v o) : Settled v' o := by
  intro hd
  have flags := congrArg List.head? hs.cacheFlags
  have flag : topDirty v'.layer o = topDirty v.layer o := by
    simp only [toView, cacheFlags, head?_cons, Option.some.injEq] at flags
    exact congrArg Prod.fst (congrFun flags o)
  have lower : views v'.base = views v.base := (List.cons.inj hs.views).2
  rw [peekCoin_eq_of_views lower]
  exact hse (flag ▸ hd)

/-- A layer that gains a DIRTY entry, or loses one where nothing lies below. -/
lemma Settled.replaced (hse : Settled v o) {x : Option CCoinsCacheEntry}
  (h : Replaced v.layer l o' x)
  (hx : x.any CCoinsCacheEntry.dirty = true ∨ v.base.peekCoin o' = none) :
  Settled { v with layer := l } o := by
  intro hd
  by_cases hs : o = o'
  · subst hs
    rcases hx with dirty | below
    · simp [topDirty, h.entry, dirty] at hd
    · exact below
  · refine hse ?_
    simpa [topDirty, h.entry, hs] using hd

variable (hv : Valid true v.toView) {tx : CTransaction} {nHeight : ℕ}
include hv

/-- `SpendCoin` forgets an entry only where nothing lies below. -/
lemma Settled.spendCoin (hs : Settled v o) : Settled (v.spendCoin o').2 o := by
  have fetches := fetchCoin_fetches hv o'
  have same : SameView true v (v.fetchCoin o').2 :=
    ⟨fetches.valid, fetches.views, fetches.cacheFlags⟩
  have fetched := hs.same same
  obtain ⟨x, v₁, hf⟩ : ∃ x v₁, v.fetchCoin o' = (x, v₁) := ⟨_, _, rfl⟩
  rw [hf] at fetched fetches
  cases x with
  | none => rwa [CCoinsViewCache.spendCoin, hf]
  | some e =>
    obtain ⟨l, spent, replaced⟩ := spendCoin_eq hf
    rw [spent]
    refine fetched.replaced replaced ?_
    cases fresh : e.fresh with
    | true => exact .inr ((fetches.entryValid rfl).absent rfl fresh)
    | false => exact .inl rfl

/-- An addition announced as no overwrite is none, where the outpoint is settled. -/
lemma addCoin_settled {coin : Coin} {possibleOverwrite : Bool}
  (hse : Settled v o) (hs : isUnspendable coin.out.scriptPubKey = false)
  (ha : possibleOverwrite = true → v.peekCoin o = none)
  (ok : v.addCoin o coin possibleOverwrite = .ok v') :
  v.peekCoin o = none ∧ Performs v v' [(o, some coin)] ∧ ∀ o', Settled v o' → Settled v' o' := by
  obtain ⟨unspent, ⟨hu, -⟩ | ⟨l, rfl, -, spent, replaced⟩⟩ := addCoin_ok ok
  · simp [hu] at hs
  have free : v.peekCoin o = none := by
    cases possibleOverwrite with
    | true => exact ha rfl
    | false =>
      have spent := spent rfl
      cases found : v.layer.entry o with
      | none =>
        rw [peekCoin, toView, peekCoin_of_no_entry _ _ _ found]
        exact hse (by simp [topDirty, found])
      | some e =>
        rw [found, Option.getD_some] at spent
        rw [peekCoin, toView, peekCoin_of_entry _ _ _ found]
        exact unspent_of_isSpent spent
  obtain ⟨v'', ok', hp⟩ := addCoin_performs hv o unspent hs fun _ => free
  obtain rfl : { v with layer := l } = v'' := Except.ok.inj (ok.symm.trans ok')
  exact ⟨free, hp, fun o' hs' => hs'.replaced replaced (.inl rfl)⟩

/-- The inputs of `UpdateCoins`, all present and different: the undo data is what was shown. -/
lemma spendInputs_performs {txins : List CTxIn} {coins : List Coin} (nodup : (prevouts txins).Nodup)
  (hp : ∀ txin ∈ txins, (v.peekCoin txin.prevout).isSome = true)
  (ok : spendInputs v txins = .ok (coins, v')) :
  coins.length = txins.length ∧ (∀ p ∈ (prevouts txins).zip coins, v.peekCoin p.1 = some p.2) ∧
    Performs v v' (spends (prevouts txins)) ∧ ∀ o, Settled v o → Settled v' o := by
  induction txins generalizing v coins with
  | nil =>
    cases ok
    exact ⟨rfl, by simp [prevouts], .of_same (.refl hv), fun _ hs => hs⟩
  | cons txin rest ih =>
    obtain ⟨hla, nodupRest⟩ := nodup_cons.mp nodup
    obtain ⟨coin, hsh⟩ := Option.isSome_iff_exists.mp (hp txin (.head _))
    obtain ⟨-, moved, -, -⟩ := spendCoin_shows hv txin.prevout
    have performs := spendCoin_performs hv txin.prevout
    have others : ∀ o, o ≠ txin.prevout →
      (v.spendCoin txin.prevout).2.peekCoin o = v.peekCoin o := by
      intro o other
      rw [performs.peekCoin, apply_of_notMem (by simpa using other)]
    have spent : v.spendCoin txin.prevout = (some coin, (v.spendCoin txin.prevout).2) :=
      Prod.ext (moved coin hsh) rfl
    unfold spendInputs at ok
    rw [spent] at ok
    obtain ⟨⟨coins', v₂⟩, hor, ok⟩ := bind_eq_ok.mp ok
    cases ok
    obtain ⟨hl, held, hpr, hs⟩ := ih performs.valid nodupRest (by
      intro txin' hm
      rw [others _ fun hsa => hla (hsa ▸ mem_map_of_mem hm)]
      exact hp txin' (.tail _ hm)) hor
    refine ⟨by simp [hl], ?_, performs.trans hpr, fun o settledHere =>
      hs o (settledHere.spendCoin hv)⟩
    intro p hm
    rcases mem_cons.mp hm with rfl | hm
    · exact hsh
    · rw [← others p.1 fun hsa => hla (hsa ▸ (of_mem_zip hm).1)]
      exact held p hm

/-- `AddCoins` without the check for overwrites, where there is nothing to overwrite. -/
lemma addCoinsFrom_performs {i : ℕ} {outs : List CTxOut}
  (hs : ∀ p ∈ createdFrom tx nHeight i outs, Settled v p.1)
  (hc : tx.isCoinBase = true → ∀ p ∈ createdFrom tx nHeight i outs, v.peekCoin p.1 = none)
  (ok : addCoinsFrom tx nHeight false v i outs = .ok v') :
  (∀ p ∈ createdFrom tx nHeight i outs, v.peekCoin p.1 = none) ∧
    Performs v v' (puts (createdFrom tx nHeight i outs)) ∧ ∀ o, Settled v o → Settled v' o := by
  induction outs generalizing v i with
  | nil =>
    cases ok
    exact ⟨by simp [createdFrom], .of_same (.refl hv), fun _ hs => hs⟩
  | cons out rest ih =>
    obtain ⟨v₁, okAdd, hor⟩ := bind_eq_ok.mp ok
    have okAdd := throwing_eq_ok.mp okAdd
    cases unspendable : isUnspendable out.scriptPubKey with
    | true =>
      have unspent : Coin.isSpent ⟨out, tx.isCoinBase, nHeight⟩ = false := by
        cases spent : Coin.isSpent ⟨out, tx.isCoinBase, nHeight⟩ with
        | false => rfl
        | true => simp [addCoin, CacheLayer.addCoin, spent, Except.map] at okAdd
      obtain rfl : v = v₁ := by
        simpa [addCoin_unspendable _ unspent unspendable] using okAdd
      simp only [createdFrom, unspendable, if_true] at hs hc ⊢
      exact ih hv hs hc hor
    | false =>
      simp only [createdFrom, unspendable, Bool.false_eq_true, if_false] at hs hc ⊢
      obtain ⟨free, hp, hk⟩ := addCoin_settled hv (hs _ (.head _)) unspendable
        (fun isCoinBase => hc isCoinBase _ (.head _)) okAdd
      have others : ∀ p ∈ createdFrom tx nHeight (i + 1) rest,
        v₁.peekCoin p.1 = v.peekCoin p.1 := by
        intro p hm
        rw [hp.peekCoin, apply_of_notMem (by simpa using createdFrom_ne hm)]
      obtain ⟨freeRest, hpr, keepsRest⟩ := ih hp.valid (fun p hm => hk _ (hs p (.tail _ hm)))
        (fun isCoinBase p hm => by
          rw [others p hm]
          exact hc isCoinBase p (.tail _ hm)) hor
      refine ⟨?_, hp.trans hpr, fun o hs => keepsRest o (hk o hs)⟩
      intro p hm
      rcases mem_cons.mp hm with rfl | hm
      · exact free
      · rw [← others p hm]
        exact freeRest p hm

/-- `UpdateCoins` performs the writes of its transaction, and its undo data fits. -/
lemma updateCoins_connects {txundo : CTxUndo} (hc : Checked tx)
  (hs : ∀ p ∈ created tx nHeight, Settled v p.1)
  (hco : tx.isCoinBase = true → ∀ p ∈ created tx nHeight, v.peekCoin p.1 = none)
  (hpr : tx.isCoinBase = false → ∀ txin ∈ tx.vin, (v.peekCoin txin.prevout).isSome = true)
  (ok : updateCoins tx v nHeight = .ok (txundo, v')) :
  TxConnects true nHeight v.peekCoin (tx, if tx.isCoinBase then none else some txundo) ∧
    Performs v v' (txWrites nHeight tx) ∧ ∀ o, Settled v o → Settled v' o := by
  obtain ⟨⟨txundo', v₁⟩, okSpend, ok⟩ := bind_eq_ok.mp ok
  obtain ⟨v₂, okAdd, ok⟩ := bind_eq_ok.mp ok
  cases ok
  have outputs : ∀ out ∈ tx.vout, out.isNull = false := by
    intro out hm
    have range := moneyRange_iff.mp (hc.outputs out hm)
    have : out.nValue ≠ -1 := by omega
    simpa [CTxOut.isNull] using this
  cases isCoinBase : tx.isCoinBase with
  | true =>
    rw [isCoinBase] at okSpend
    cases okSpend
    obtain ⟨free, hp, hk⟩ := addCoinsFrom_performs hv hs hco okAdd
    have nothing : spent tx = [] := by simp [spent, isCoinBase]
    refine ⟨⟨isCoinBase, by simp [taken], by simp [nothing], outputs, ?_⟩, ?_, hk⟩
    · rw [nothing]
      exact fun _ => free
    · rw [txWrites, nothing]
      exact hp
  | false =>
    rw [isCoinBase] at okSpend
    have inputs : spent tx = prevouts tx.vin := by simp [spent, isCoinBase]
    obtain ⟨hl, held, hp, hk⟩ := spendInputs_performs hv hc.inputs (hpr isCoinBase) okSpend
    obtain ⟨free, performsAdd, keepsAdd⟩ := addCoinsFrom_performs hp.valid
      (fun p hm => hk _ (hs p hm)) (by simp [isCoinBase]) okAdd
    refine ⟨⟨⟨isCoinBase, hl⟩, held, ?_, outputs, ?_⟩, ?_, fun o hs => keepsAdd o (hk o hs)⟩
    · rw [inputs]
      exact hc.inputs
    · rw [inputs, ← hp.peekCoin]
      exact fun _ => free
    · rw [txWrites, inputs]
      exact hp.trans performsAdd

end

variable {v : CCoinsViewCache}

lemma spendAll_performs (hv : Valid true v.toView) (txins : List CTxIn) :
  Performs v (spendAll v txins) (spends (prevouts txins)) := by
  induction txins generalizing v with
  | nil => exact .of_same (.refl hv)
  | cons txin rest ih =>
    have performs := spendCoin_performs hv txin.prevout
    exact performs.trans (ih performs.valid)

/-- `AddCoins` with the check for overwrites puts the coins whatever is there. -/
lemma addCoinsFrom_overwrites (tx : CTransaction) (nHeight i : ℕ) {outs : List CTxOut}
  (hv : Valid true v.toView) (ho : ∀ out ∈ outs, out.isNull = false) :
  ∃ v', addCoinsFrom tx nHeight true v i outs = .ok v' ∧
    Performs v v' (puts (createdFrom tx nHeight i outs)) := by
  induction outs generalizing v i with
  | nil => exact ⟨v, rfl, .of_same (.refl hv)⟩
  | cons out rest ih =>
    obtain ⟨hs, -, ha⟩ := haveCoin_same hv ⟨tx.hash, i⟩
    have unspent : Coin.isSpent ⟨out, tx.isCoinBase, nHeight⟩ = false := ho out (.head _)
    have later : ∀ out' ∈ rest, out'.isNull = false := fun out' hm =>
      ho out' (.tail _ hm)
    cases unspendable : isUnspendable out.scriptPubKey with
    | true =>
      obtain ⟨v', ok, hp⟩ := ih (i + 1) hs.valid later
      refine ⟨v', ?_, ?_⟩
      · simp only [addCoinsFrom, addCoin_unspendable _ unspent unspendable, throwing,
          Except.mapError, if_true, bind, Except.bind, ok]
      · simp only [createdFrom, unspendable, if_true]
        exact .after_same hs hp
    | false =>
      obtain ⟨v₁, okAdd, hp⟩ := addCoin_performs hs.valid _ unspent unspendable ha
      obtain ⟨v', ok, hpr⟩ := ih (i + 1) hp.valid later
      refine ⟨v', ?_, ?_⟩
      · simp only [addCoinsFrom, if_true, okAdd, throwing, Except.mapError, bind, Except.bind, ok]
      · simp only [createdFrom, unspendable, Bool.false_eq_true, if_false]
        exact (Performs.after_same hs hp).trans hpr

lemma rollforwardTxs_performs (nHeight : ℕ) {txs : List CTransaction}
  (hv : Valid true v.toView) (ho : ∀ tx ∈ txs, ∀ out ∈ tx.vout, out.isNull = false) :
  ∃ v', rollforwardTxs nHeight v txs = .ok v' ∧ Performs v v' (blockWrites nHeight txs) := by
  induction txs generalizing v with
  | nil => exact ⟨v, rfl, .of_same (.refl hv)⟩
  | cons tx rest ih =>
    have spending : Performs v (if tx.isCoinBase then v else spendAll v tx.vin)
      (spends (spent tx)) := by
      rw [spent]
      split
      · exact .of_same (.refl hv)
      · exact spendAll_performs hv tx.vin
    obtain ⟨v₁, okAdd, adding⟩ := addCoinsFrom_overwrites tx nHeight 0
      spending.valid (ho tx (.head _))
    obtain ⟨v', ok, hp⟩ := ih adding.valid fun tx' hm =>
      ho tx' (.tail _ hm)
    refine ⟨v', ?_, (spending.trans adding).trans hp⟩
    simp only [rollforwardTxs, addCoins, okAdd, bind, Except.bind, ok]

end UtxoWrites
