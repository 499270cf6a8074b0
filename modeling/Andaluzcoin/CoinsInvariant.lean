import Andaluzcoin.Coins
import Andaluzcoin.LayeredMap
import Andaluzcoin.Outcome

/-!
# The invariant of the coins caches

What the flags of a cache entry promise about the view below it, and one
specification for each operation of a cache: which coins it shows afterwards,
and that the promises still hold. The linked list holds the flagged keys, each
once.
-/

namespace CoinsInvariant

open Transaction Coins Function CoinsView CacheLayer CCoinsCacheEntry Coin
open CCoinsViewCache (toView haveCoin accessCoin spendCoin)

variable {e : CCoinsCacheEntry} {o : COutPoint} {below : COutPoint → Option Coin}
  {l l' : CacheLayer} {coin : Coin}

/-- The promises of an entry over a view that shows `below` at its outpoint. That nothing
is below a FRESH entry holds only as long as no addition was wrongly announced as no
overwrite; `strict` says whether it is promised. -/
structure EntryValid (strict : Bool) (below : Option Coin) (e : CCoinsCacheEntry) : Prop where
  spent : e.coin.isSpent = true → e.coin = Coin.empty ∧ e.dirty = true ∧ e.fresh = false
  clean : e.dirty = false → below = some e.coin
  fresh : e.fresh = true → e.dirty = true
  absent : strict = true → e.fresh = true → below = none

/-- The list of flagged entries is exact. -/
structure Linked (l : CacheLayer) : Prop where
  mem_iff : ∀ o, o ∈ l.flagged ↔ (l.entry o).any isFlagged = true
  nodup : l.flagged.Nodup

structure LayerValid (strict : Bool) (below : COutPoint → Option Coin) (l : CacheLayer) :
  Prop where
  entries : ∀ o e, l.entry o = some e → EntryValid strict (below o) e
  linked : Linked l

/-- Every layer of the stack keeps its promises. -/
def Valid (strict : Bool) : CoinsView → Prop
  | .bottom _ => True
  | .cache l base => LayerValid strict base.peekCoin l ∧ Valid strict base

variable {strict : Bool}

/-- What each depth of a stack shows, from the top layer down to the bottom. -/
def views : CoinsView → List (COutPoint → Option Coin)
  | .bottom b => [b.getCoin]
  | .cache l base => (CoinsView.cache l base).peekCoin :: views base

/-- The outpoints at which a layer holds a FRESH or a DIRTY entry. -/
def topFresh (l : CacheLayer) (o : COutPoint) : Bool := (l.entry o).any CCoinsCacheEntry.fresh

def topDirty (l : CacheLayer) (o : COutPoint) : Bool := (l.entry o).any CCoinsCacheEntry.dirty

/-- The DIRTY and FRESH flags of each cache of a stack, from the top down. -/
def cacheFlags : CoinsView → List (COutPoint → Bool × Bool)
  | .bottom _ => []
  | .cache l base => (fun o => (topDirty l o, topFresh l o)) :: cacheFlags base

lemma views_eq_cons (v : CoinsView) : views v = v.peekCoin :: (views v).tail := by
  cases v with
  | bottom b => rfl
  | cache l base => rfl

/-- A layer with `x` at an outpoint, and its list of flagged entries linked anew. -/
structure Replaced (l l' : CacheLayer) (o : COutPoint) (x : Option CCoinsCacheEntry) : Prop where
  entry : l'.entry = update l.entry o x
  flagged : l'.flagged = l.relink o (x.any isFlagged)

lemma replaced_put (hc : l'.cacheCoins = l.cacheCoins.insert o e)
  (hf : l'.flagged = l.relink o e.isFlagged) : Replaced l l' o (some e) := by
  refine ⟨funext fun o' => ?_, hf⟩
  by_cases hs : o' = o
  · subst hs
    simp [entry, hc]
  · simp [entry, hc, hs, AList.lookup_insert_ne hs]

lemma replaced_erase (hc : l'.cacheCoins = l.cacheCoins.erase o)
  (hf : l'.flagged = l.relink o false) : Replaced l l' o none := by
  refine ⟨funext fun o' => ?_, hf⟩
  by_cases hs : o' = o
  · subst hs
    simp [entry, hc]
  · simp [entry, hc, hs, AList.lookup_erase_ne hs]

lemma mem_relink (hl : Linked l) (nowFlagged : Bool) (o' : COutPoint) :
  o' ∈ l.relink o nowFlagged ↔ if o' = o then nowFlagged = true else o' ∈ l.flagged := by
  have was := hl.mem_iff o
  unfold relink
  cases hw : (l.entry o).any isFlagged <;> cases nowFlagged <;> by_cases eq : o' = o <;>
    simp_all [hl.nodup.mem_erase_iff]

lemma Replaced.linked {x : Option CCoinsCacheEntry} (h : Replaced l l' o x) (hl : Linked l) :
  Linked l' := by
  constructor
  · intro o'
    rw [h.flagged, mem_relink hl, h.entry]
    by_cases eq : o' = o
    · simp [eq]
    · rw [if_neg eq, update_of_ne eq, hl.mem_iff]
  have was := hl.mem_iff o
  rw [h.flagged]
  unfold relink
  split
  · next hw _ =>
    have absent : o ∉ l.flagged := by simp [was, hw]
    exact hl.nodup.append (List.nodup_singleton o) (by simpa using absent)
  · exact hl.nodup.erase o
  · exact hl.nodup

section
variable (hv : LayerValid strict below l)
include hv

lemma LayerValid.congr (hc : l'.cacheCoins = l.cacheCoins)
  (hf : l'.flagged = l.flagged) : LayerValid strict below l' := by
  have same : l'.entry = l.entry := by
    funext o
    simp [entry, hc]
  refine ⟨?_, ?_, ?_⟩
  · rw [same]
    exact hv.entries
  · rw [same, hf]
    exact hv.linked.mem_iff
  · rw [hf]
    exact hv.linked.nodup

lemma LayerValid.replaced {x : Option CCoinsCacheEntry} (h : Replaced l l' o x)
  (hev : ∀ e ∈ x, EntryValid strict (below o) e) : LayerValid strict below l' := by
  refine ⟨fun o' e' hf => ?_, h.linked hv.linked⟩
  rw [h.entry] at hf
  by_cases hs : o' = o
  · subst hs
    rw [update_self] at hf
    exact hev e' hf
  · rw [update_of_ne hs] at hf
    exact hv.entries o' e' hf

end

lemma layerValid_empty
  (hc : l.cacheCoins = ∅) (hfl : l.flagged = []) : LayerValid strict below l := by
  have none : ∀ o, l.entry o = none := by
    intro o
    simp [entry, hc]
  refine ⟨fun o e hf => ?_, fun o => ?_, by simp [hfl]⟩
  · rw [none o] at hf
    cases hf
  · simp [hfl, none o]

section
variable (l : CacheLayer) (base : CoinsView) (o : COutPoint)

lemma peekCoin_of_entry {e : CCoinsCacheEntry} (hf : l.entry o = some e) :
  (CoinsView.cache l base).peekCoin o = e.unspent := by
  simp [peekCoin, hf]

lemma peekCoin_of_no_entry (hm : l.entry o = none) :
  (CoinsView.cache l base).peekCoin o = base.peekCoin o := by
  simp [peekCoin, hm]

lemma peekCoin_congr {l l' : CacheLayer} (hc : l'.cacheCoins = l.cacheCoins) (base : CoinsView) :
  (CoinsView.cache l' base).peekCoin = (CoinsView.cache l base).peekCoin := by
  funext o
  simp [peekCoin, CacheLayer.entry, hc]

lemma peekCoin_replaced {l l' : CacheLayer} {o : COutPoint} {x : Option CCoinsCacheEntry}
  (h : Replaced l l' o x) (base : CoinsView) : (CoinsView.cache l' base).peekCoin
    = update (CoinsView.cache l base).peekCoin o (x.elim (base.peekCoin o) unspent) := by
  funext o'
  by_cases hs : o' = o
  · subst hs
    cases x <;> simp [peekCoin, h.entry]
  · simp [peekCoin, hs, h.entry]

end

lemma unspent_eq_some (h : e.unspent = some coin) : e.coin = coin ∧ coin.isSpent = false := by
  unfold unspent at h
  split at h
  · cases h
  · next hs =>
    obtain rfl := Option.some.inj h
    exact ⟨rfl, by simpa using hs⟩

lemma unspent_of_isSpent (h : e.coin.isSpent = true) : e.unspent = none := by
  simp [unspent, h]

lemma unspent_of_not_isSpent (h : e.coin.isSpent = false) : e.unspent = some e.coin := by
  simp [unspent, h]

lemma peekCoin_unspent (v : CoinsView) (o : COutPoint)
  (hf : v.peekCoin o = some coin) : coin.isSpent = false := by
  induction v with
  | bottom b => exact b.unspent o coin hf
  | cache l base ih =>
    cases h : l.entry o with
    | none => exact ih (by rwa [peekCoin_of_no_entry l base o h] at hf)
    | some e =>
      rw [peekCoin_of_entry l base o h] at hf
      exact (unspent_eq_some hf).2

/-- What an entry that comes out of `fetchCoin` says about the coin shown there. -/
lemma EntryValid.accessed {below : Option Coin}
  (hv : EntryValid strict below e) : e.coin = e.unspent.getD empty := by
  cases h : e.coin.isSpent with
  | true => rw [unspent_of_isSpent h, (hv.spent h).1]; rfl
  | false => rw [unspent_of_not_isSpent h]; rfl

lemma entryValid_fetched {below : Option Coin} (hf : below = some coin)
  (unspent : coin.isSpent = false) : EntryValid strict below ⟨coin, false, false⟩ where
  spent := by simp [unspent]
  clean := fun _ => hf
  fresh := by simp
  absent := by simp

/-- An unspent coin written by the cache itself: FRESH is right when nothing is below. -/
lemma entryValid_written {below : Option Coin} {fresh : Bool} (unspent : coin.isSpent = false)
  (absent : strict = true → fresh = true → below = none) :
  EntryValid strict below ⟨coin, true, fresh⟩ where
  spent := by simp [unspent]
  clean := by simp
  fresh := fun _ => rfl
  absent := absent

lemma entryValid_spent (below : Option Coin) : EntryValid strict below ⟨empty, true, false⟩ where
  spent := fun _ => ⟨rfl, rfl, rfl⟩
  clean := by simp
  fresh := by simp
  absent := by simp

section
variable {v : CCoinsViewCache} {l : CacheLayer} {base : CoinsView}

/-- A lookup leaves every depth showing what it showed, and every flag in place. -/
structure LooksUp (strict : Bool) {α : Type*} (v : CoinsView) (expected : α)
  (r : α × CoinsView) : Prop where
  answer : r.1 = expected
  valid : Valid strict r.2
  views : views r.2 = views v
  cacheFlags : cacheFlags r.2 = cacheFlags v

lemma peekCoin_eq_of_views {v v' : CoinsView} (hs : views v' = views v) :
  v'.peekCoin = v.peekCoin := by
  rw [views_eq_cons v, views_eq_cons v'] at hs
  exact (List.cons.inj hs).1

/-- Looking below a cache leaves the cache valid and all views as they were. -/
lemma LooksUp.under {α : Type*} {expected : α}
  {r : α × CoinsView} (below : LooksUp strict base expected r) (hv : Valid strict (.cache l base)) :
  Valid strict (.cache l r.2) ∧
    CoinsInvariant.views (.cache l r.2) = CoinsInvariant.views (.cache l base) ∧
    CoinsInvariant.cacheFlags (.cache l r.2) = CoinsInvariant.cacheFlags (.cache l base) := by
  have sameBase := peekCoin_eq_of_views below.views
  have top : (CoinsView.cache l r.2).peekCoin = (CoinsView.cache l base).peekCoin := by
    funext o
    simp [peekCoin, sameBase]
  refine ⟨⟨?_, below.valid⟩, ?_, ?_⟩
  · rw [sameBase]
    exact hv.1
  · simp only [CoinsInvariant.views, top, below.views]
  · simp only [CoinsInvariant.cacheFlags, below.cacheFlags]

/-- `fetchWith` on what the base answers, for a base that was only looked at. -/
lemma fetchWith_spec (hv : Valid strict (.cache l base))
  (o : COutPoint) {fromBase : Option Coin × CoinsView}
  (below : LooksUp strict base (base.peekCoin o) fromBase) : let r := l.fetchWith o base fromBase
  LooksUp strict (.cache l base) ((CoinsView.cache l base).peekCoin o)
    (r.1.bind CCoinsCacheEntry.unspent, r.2.toView) ∧
  (∀ e, r.1 = some e → r.2.layer.entry o = some e) ∧
  (r.1 = none → r.2.layer.entry o = none) := by
  cases h : l.entry o with
  | some e =>
    have fetched : l.fetchWith o base fromBase = (some e, ⟨l, base⟩) := by
      simp [fetchWith, h]
    rw [fetched]
    refine ⟨⟨?_, hv, rfl, rfl⟩, ?_, by simp⟩
    · simpa using (peekCoin_of_entry l base o h).symm
    · rintro e' ⟨⟩
      exact h
  | none =>
    have shown := peekCoin_of_no_entry l base o h
    have sameBase := peekCoin_eq_of_views below.views
    cases hc : fromBase.1 with
    | none =>
      have fetched : l.fetchWith o base fromBase = (none, ⟨l, fromBase.2⟩) := by
        simp [fetchWith, h, hc]
      rw [fetched]
      have under := below.under hv
      refine ⟨⟨?_, under.1, under.2.1, under.2.2⟩, by simp, fun _ => h⟩
      rw [shown, ← below.answer, hc]
      rfl
    | some coin =>
      have atBase : base.peekCoin o = some coin := by rw [← below.answer, hc]
      have unspent := peekCoin_unspent base o atBase
      have fetched : l.fetchWith o base fromBase = (some ⟨coin, false, false⟩,
        ⟨{ l.putEntry o ⟨coin, false, false⟩ with
          cachedCoinsUsage := l.cachedCoinsUsage + dynamicMemoryUsage coin },
          fromBase.2⟩) := by
        simp [fetchWith, h, hc]
      have put := @replaced_put ⟨coin, false, false⟩ o l { l.putEntry o ⟨coin, false, false⟩ with
          cachedCoinsUsage := l.cachedCoinsUsage + dynamicMemoryUsage coin } rfl rfl
      rw [fetched]
      refine ⟨⟨?_, ⟨?_, below.valid⟩, ?_, ?_⟩, ?_, by simp⟩
      · rw [shown, atBase]
        simp [CCoinsCacheEntry.unspent, unspent]
      · rw [sameBase]
        exact hv.1.replaced put (by simpa using entryValid_fetched atBase unspent)
      · simp only [toView, views, below.views]
        congr 1
        funext o'
        rw [peekCoin_replaced put]
        by_cases hs : o' = o
        · subst hs
          simp [shown, atBase, CCoinsCacheEntry.unspent, unspent]
        · simp [hs, peekCoin, sameBase]
      · simp only [toView, cacheFlags, below.cacheFlags]
        congr 1
        funext o'
        by_cases hs : o' = o
        · subst hs
          simp [topDirty, topFresh, h, put.entry]
        · simp [topDirty, topFresh, put.entry, hs]
      · rintro e ⟨⟩
        simp [put.entry]

lemma peekCoin_looksUp {v : CoinsView} (hv : Valid strict v) (o : COutPoint) :
  LooksUp strict v (v.peekCoin o) (v.peekCoin o, v) :=
  ⟨rfl, hv, rfl, rfl⟩

/-- `GetCoin` answers what `PeekCoin` shows, whatever it caches on the way. -/
lemma getCoin_looksUp {v : CoinsView} (hv : Valid strict v) (o : COutPoint) :
  LooksUp strict v (v.peekCoin o) (v.getCoin o) := by
  induction v with
  | bottom b => exact ⟨rfl, hv, rfl, rfl⟩
  | cache l base ih =>
    cases h : l.isOverlay with
    | true =>
      have := (fetchWith_spec hv o (peekCoin_looksUp hv.2 o)).1
      simpa [getCoin, h] using this
    | false =>
      have := (fetchWith_spec hv o (ih hv.2)).1
      simpa [getCoin, h] using this

lemma fetchCoinFromBase_looksUp (hv : Valid strict v.toView) (o : COutPoint) :
  LooksUp strict v.base (v.base.peekCoin o) (v.fetchCoinFromBase o) := by
  unfold CCoinsViewCache.fetchCoinFromBase
  split
  · exact peekCoin_looksUp hv.2 o
  · exact getCoin_looksUp hv.2 o

/-- `FetchCoin` hands out the entry it leaves in the cache, and shows nothing new. -/
structure Fetches (strict : Bool) (v : CCoinsViewCache) (o : COutPoint)
  (r : Option CCoinsCacheEntry × CCoinsViewCache) : Prop where
  shown : r.1.bind CCoinsCacheEntry.unspent = v.peekCoin o
  valid : Valid strict r.2.toView
  views : CoinsInvariant.views r.2.toView = CoinsInvariant.views v.toView
  cacheFlags : CoinsInvariant.cacheFlags r.2.toView = CoinsInvariant.cacheFlags v.toView
  entry : r.2.layer.entry o = r.1

lemma fetchCoin_fetches (hv : Valid strict v.toView) (o : COutPoint) :
  Fetches strict v o (v.fetchCoin o) := by
  obtain ⟨hlu, onSome, onNone⟩ := fetchWith_spec hv o (fetchCoinFromBase_looksUp hv o)
  refine { hlu with shown := hlu.answer, entry := ?_ }
  cases h : (v.fetchCoin o).1 with
  | none => exact onNone h
  | some e => exact onSome e h

lemma Fetches.entryValid {o : COutPoint}
  {r : Option CCoinsCacheEntry × CCoinsViewCache} (hf : Fetches strict v o r)
  {e : CCoinsCacheEntry} (hfo : r.1 = some e) : EntryValid strict (r.2.base.peekCoin o) e :=
  hf.valid.1.entries o e (hf.entry.trans hfo)

variable (hv : Valid strict v.toView)
include hv

lemma cache_getCoin_looksUp (o : COutPoint) :
  LooksUp strict v.toView (v.peekCoin o) ((v.getCoin o).1, (v.getCoin o).2.toView) :=
  have fetches := fetchCoin_fetches hv o
  { fetches with answer := fetches.shown }

lemma haveCoin_looksUp (o : COutPoint) :
  LooksUp strict v.toView (v.peekCoin o).isSome ((v.haveCoin o).1, (v.haveCoin o).2.toView) := by
  have fetches := fetchCoin_fetches hv o
  refine ⟨?_, fetches.valid, fetches.views, fetches.cacheFlags⟩
  rw [← fetches.shown]
  cases h : (v.fetchCoin o).1 with
  | none => simp [haveCoin, h]
  | some e => cases hs : e.coin.isSpent <;>
      simp [haveCoin, h, unspent, hs]

lemma accessCoin_looksUp (o : COutPoint) : LooksUp strict v.toView ((v.peekCoin o).getD empty)
    ((v.accessCoin o).1, (v.accessCoin o).2.toView) := by
  have fetches := fetchCoin_fetches hv o
  refine ⟨?_, fetches.valid, fetches.views, fetches.cacheFlags⟩
  rw [← fetches.shown]
  cases h : (v.fetchCoin o).1 with
  | none => simp [accessCoin, h]
  | some e => simpa [accessCoin, h] using (fetches.entryValid h).accessed

end

variable {v : CCoinsViewCache} {l : CacheLayer}

/-- The top layer changes so that the stack shows `shown`; nothing below changes. -/
structure Shows (strict : Bool) (v v' : CCoinsViewCache) (shown : COutPoint → Option Coin) : Prop where
  valid : Valid strict v'.toView
  views : views v'.toView = shown :: views v.base

lemma Shows.peekCoin {v' : CCoinsViewCache} {shown : COutPoint → Option Coin}
  (hs : Shows strict v v' shown) : v'.peekCoin = shown :=
  (List.cons.inj hs.views).1

lemma Replaced.shows {x : Option CCoinsCacheEntry} (h : Replaced v.layer l o x)
  (hv : Valid strict v.toView) (hev : ∀ e ∈ x, EntryValid strict (v.base.peekCoin o) e) :
  Shows strict v { v with layer := l }
    (update v.peekCoin o (x.elim (v.base.peekCoin o) CCoinsCacheEntry.unspent)) := by
  refine ⟨⟨hv.1.replaced h hev, hv.2⟩, ?_⟩
  simp only [toView, CoinsInvariant.views]
  rw [peekCoin_replaced h]
  rfl

/-- The coins a view shows after an unspent coin was added: unspendable ones are not stored. -/
def added (shown : COutPoint → Option Coin) (o : COutPoint) (coin : Coin) :
  COutPoint → Option Coin :=
  if isUnspendable coin.out.scriptPubKey then shown else update shown o (some coin)

lemma addCoin_ok {v' : CCoinsViewCache} {possibleOverwrite : Bool}
  (ok : v.addCoin o coin possibleOverwrite = .ok v') : coin.isSpent = false ∧
  ((isUnspendable coin.out.scriptPubKey = true ∧ v' = v) ∨ ∃ l, v' = { v with layer := l } ∧
      let old := (v.layer.entry o).getD new
      let e : CCoinsCacheEntry := ⟨coin, true, old.fresh || (!possibleOverwrite && !old.dirty)⟩
      isUnspendable coin.out.scriptPubKey = false ∧
      (possibleOverwrite = false → old.coin.isSpent = true) ∧
      Replaced v.layer l o (some e)) := by
  obtain ⟨l, hadded, rfl⟩ := Outcome.map_eq_ok.mp ok
  unfold CacheLayer.addCoin at hadded
  split at hadded
  · cases hadded
  · next hsp =>
    refine ⟨by simpa using hsp, ?_⟩
    split at hadded
    · next unspendable =>
      cases hadded
      exact Or.inl ⟨unspendable, rfl⟩
    · next hs =>
      dsimp only at hadded
      split at hadded
      · cases hadded
      · next noThrow =>
        cases hadded
        refine Or.inr ⟨_, rfl, by simpa using hs, fun ho => ?_, replaced_put rfl rfl⟩
        simpa [ho] using noThrow

/-- `AddCoin` stores the coin, whatever the flag, as long as an addition announced as
no overwrite is none. -/
lemma addCoin_shows (hv : Valid true v.toView) (o : COutPoint)
  {coin : Coin} (unspent : coin.isSpent = false) {possibleOverwrite : Bool}
  (ha : possibleOverwrite = false → v.peekCoin o = none) :
  ∃ v', v.addCoin o coin possibleOverwrite = .ok v' ∧ Shows true v v' (added v.peekCoin o coin) := by
  unfold added
  cases hu : isUnspendable coin.out.scriptPubKey with
  | true =>
    refine ⟨v, ?_, hv, rfl⟩
    simp [CCoinsViewCache.addCoin, addCoin, unspent, hu, Except.map]
  | false =>
    set old := (v.layer.entry o).getD CCoinsCacheEntry.new with hold
    have oldSpent : possibleOverwrite = false → old.coin.isSpent = true := by
      intro noOverwrite
      cases h : v.layer.entry o with
      | none => simp [hold, h, CCoinsCacheEntry.new]
      | some e =>
        have shown := ha noOverwrite
        rw [CCoinsViewCache.peekCoin, CCoinsViewCache.toView, peekCoin_of_entry _ _ _ h] at shown
        cases hs : e.coin.isSpent with
        | true => simp [hold, h, hs]
        | false => simp [CCoinsCacheEntry.unspent, hs] at shown
    have belowNone : ∀ fresh : Bool, fresh = (!possibleOverwrite && !old.dirty) →
      old.fresh || fresh → v.base.peekCoin o = none := by
      intro fresh hfresh flag
      cases h : v.layer.entry o with
      | none =>
        have noOverwrite : possibleOverwrite = false := by
          simp [hold, h, CCoinsCacheEntry.new] at hfresh flag
          simpa [hfresh] using flag
        have shown := ha noOverwrite
        rwa [CCoinsViewCache.peekCoin, CCoinsViewCache.toView,
          peekCoin_of_no_entry _ _ _ h] at shown
      | some e =>
        have entryValid := hv.1.entries o e h
        have oldEq : old = e := by simp [hold, h]
        rcases Bool.or_eq_true _ _ |>.mp flag with wasFresh | nowFresh
        · exact entryValid.absent rfl (by rwa [oldEq] at wasFresh)
        rw [nowFresh] at hfresh
        have both := (Bool.and_eq_true _ _).mp hfresh.symm
        have spent := oldSpent (by simpa using both.1)
        have dirty := (entryValid.spent (by rwa [oldEq] at spent)).2.1
        rw [oldEq, dirty] at both
        simp at both
    have guard : ¬ (!possibleOverwrite && !old.coin.isSpent) = true := by
      cases possibleOverwrite with
      | true => simp
      | false => simp [oldSpent rfl]
    obtain ⟨l, ok, replaced⟩ : ∃ l, v.layer.addCoin o coin possibleOverwrite = .ok l ∧
      Replaced v.layer l o
        (some ⟨coin, true, old.fresh || (!possibleOverwrite && !old.dirty)⟩) := by
      rw [addCoin, if_neg (by simp [unspent]), if_neg (by simp [hu])]
      rw [← hold, if_neg guard]
      refine ⟨_, rfl, ?_⟩
      exact replaced_put rfl rfl
    refine ⟨_, by rw [CCoinsViewCache.addCoin, ok]; rfl, ?_⟩
    have stored : some coin = CCoinsCacheEntry.unspent
      ⟨coin, true, old.fresh || (!possibleOverwrite && !old.dirty)⟩ := by
      simp [CCoinsCacheEntry.unspent, unspent]
    rw [if_neg Bool.false_ne_true, stored]
    refine replaced.shows hv ?_
    rintro _ ⟨⟩
    exact entryValid_written unspent fun _ => belowNone _ rfl

lemma spendCoin_eq {v' : CCoinsViewCache} (h : v.fetchCoin o = (some e, v')) :
  ∃ l, v.spendCoin o = (some e.coin, { v' with layer := l }) ∧
    Replaced v'.layer l o (if e.fresh then none else some ⟨empty, true, false⟩) := by
  cases hf : e.fresh with
  | true =>
    simp only [spendCoin, h, hf, if_true]
    refine ⟨_, rfl, ?_⟩
    exact replaced_erase rfl rfl
  | false =>
    simp only [spendCoin, h, hf, Bool.false_eq_true, if_false]
    refine ⟨_, rfl, ?_⟩
    exact replaced_put rfl rfl

lemma spendCoin_shows (hv : Valid true v.toView) (o : COutPoint) :
  (v.spendCoin o).1.getD empty = (v.peekCoin o).getD empty ∧
  (∀ coin, v.peekCoin o = some coin → (v.spendCoin o).1 = some coin) ∧
  Valid true (v.spendCoin o).2.toView ∧
  views (v.spendCoin o).2.toView = update v.peekCoin o none :: (views v.toView).tail := by
  have fetches := fetchCoin_fetches hv o
  obtain ⟨x, v', h⟩ : ∃ x v', v.fetchCoin o = (x, v') := ⟨_, _, rfl⟩
  rw [h] at fetches
  have samePeek : v'.peekCoin = v.peekCoin := peekCoin_eq_of_views fetches.views
  have shown : v.peekCoin o = x.bind unspent := fetches.shown.symm
  cases x with
  | none =>
    have nothing : v.spendCoin o = (none, v') := by rw [spendCoin, h]
    rw [nothing]
    refine ⟨by simp [shown], by simp [shown], fetches.valid, ?_⟩
    rw [fetches.views, ← Option.bind_none unspent, ← shown, update_eq_self]
    exact views_eq_cons v.toView
  | some e =>
    have entryValid := fetches.entryValid rfl
    have accessed : e.coin = (v.peekCoin o).getD empty := shown ▸ entryValid.accessed
    obtain ⟨l, spent, replaced⟩ := spendCoin_eq h
    rw [spent]
    have shows := replaced.shows fetches.valid (by cases e.fresh <;> simp [entryValid_spent])
    refine ⟨accessed, fun coin hfo => by rw [accessed, hfo]; rfl, shows.valid, ?_⟩
    have gone : (if e.fresh then none else some ⟨empty, true, false⟩ :
      Option CCoinsCacheEntry).elim (v'.base.peekCoin o) unspent = none := by
      cases hf : e.fresh with
      | true => exact entryValid.absent rfl hf
      | false => rfl
    rw [shows.views, gone, samePeek, ← fetches.views]
    rfl

lemma uncache_shows (hv : Valid strict v.toView) (o : COutPoint) :
  Shows strict v (v.uncache o) v.peekCoin := by
  have unchanged : Shows strict v v v.peekCoin := ⟨hv, rfl⟩
  cases h : v.layer.entry o with
  | none =>
    simpa [CCoinsViewCache.uncache, uncache, h] using unchanged
  | some e =>
    cases hd : e.dirty with
    | true => simpa [CCoinsViewCache.uncache, uncache, h, hd] using unchanged
    | false =>
      have entryValid := hv.1.entries o e h
      have below : v.base.peekCoin o = v.peekCoin o := by
        have found := entryValid.clean hd
        have unspent := peekCoin_unspent v.base o found
        rw [found, CCoinsViewCache.peekCoin, toView, peekCoin_of_entry _ _ _ h,
          unspent_of_not_isSpent unspent]
      have shows := (replaced_erase rfl rfl).shows (l := { v.layer.eraseEntry o with
          cachedCoinsUsage := trySub v.layer.cachedCoinsUsage (dynamicMemoryUsage e.coin) })
        hv (by simp)
      rw [Option.elim_none, below, update_eq_self] at shows
      simpa [CCoinsViewCache.uncache, uncache, h, hd] using shows

lemma reset_shows (hv : Valid strict v.toView) : Shows strict v v.reset v.base.peekCoin := by
  refine ⟨⟨layerValid_empty rfl rfl, hv.2⟩, ?_⟩
  have top : (CoinsView.cache v.layer.reset v.base).peekCoin = v.base.peekCoin := by
    funext o
    exact peekCoin_of_no_entry _ _ _ rfl
  simp only [CCoinsViewCache.toView, CCoinsViewCache.reset, CoinsInvariant.views, top]

end CoinsInvariant
