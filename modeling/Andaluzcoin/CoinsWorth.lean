import Andaluzcoin.CoinsFlush
import Andaluzcoin.SumBound

/-!
# What a stack of coins caches is worth

Blocks exempt from the BIP30 check may add a coin over an unspent one, and the
FRESH flag it gets then hides the older coin instead of replacing it: spending
the new coin brings the old one back. So the value a stack shows at an outpoint
is counted together with the value its FRESH entries hide there. That worth
never grows but by the coins added.
-/

namespace CoinsWorth

open Transaction Coins CoinsInvariant CoinsFlush List Function CoinsView CCoinsCacheEntry Coin
  Outcome

variable {o : COutPoint} {l : CacheLayer} {v v' : CoinsView} {B : ℕ}

def value (coin : Option Coin) : ℕ := coin.elim 0 fun coin => coin.out.nValue.toNat

@[simp] lemma value_none : value none = 0 := rfl

/-- The value of the coins that FRESH entries of the stack hide at an outpoint. -/
def buried : CoinsView → COutPoint → ℕ
  | .bottom _, _ => 0
  | .cache l base, o => buried base o + if topFresh l o then value (base.peekCoin o) else 0

def worth (v : CoinsView) (o : COutPoint) : ℕ := value (v.peekCoin o) + buried v o

/-- Every coin at any depth has a value in the money range. -/
def InRange (v : CoinsView) : Prop :=
  ∀ shown ∈ views v, ∀ o coin, shown o = some coin → moneyRange coin.out.nValue = true

/-- The invariant of a stack whose coins are worth at most `B`. -/
structure Sound (v : CoinsView) (B : ℕ) : Prop where
  valid : Valid false v
  inRange : InRange v
  bound : SumBound (worth v) B

lemma buried_congr (hs : views v' = views v)
  (hf : cacheFlags v' = cacheFlags v) : buried v' = buried v := by
  induction v generalizing v' with
  | bottom b =>
    cases v' with
    | bottom b' => rfl
    | cache l' base' => cases hf
  | cache l base ih =>
    cases v' with
    | bottom b' => cases hf
    | cache l' base' =>
      have lowerViews : views base' = views base := (cons.inj hs).2
      have lowerFlags : cacheFlags base' = cacheFlags base := (cons.inj hf).2
      funext o
      have top : topFresh l' o = topFresh l o := congrArg Prod.snd (congrFun (cons.inj hf).1 o)
      simp only [buried, ih lowerViews lowerFlags, top, peekCoin_eq_of_views lowerViews]

lemma worth_congr (hs : views v' = views v)
  (hf : cacheFlags v' = cacheFlags v) : worth v' = worth v := by
  funext o
  simp only [worth, buried_congr hs hf, peekCoin_eq_of_views hs]

lemma peekCoin_mem_views (v : CoinsView) : v.peekCoin ∈ views v := by
  rw [views_eq_cons v]
  exact .head _

section
variable (sound : Sound v B)
include sound

lemma Sound.congr (valid : Valid false v')
  (hs : views v' = views v) (hf : cacheFlags v' = cacheFlags v) : Sound v' B where
  valid := valid
  inRange := by
    unfold InRange
    rw [hs]
    exact sound.inRange
  bound := by
    rw [worth_congr hs hf]
    exact sound.bound

lemma Sound.lookUp {α : Type*} {expected : α} {r : α × CoinsView}
  (hlu : LooksUp false v expected r) : Sound r.2 B :=
  sound.congr hlu.valid hlu.views hlu.cacheFlags

lemma Sound.weaken {C : ℕ} (le : B ≤ C) : Sound v C :=
  ⟨sound.valid, sound.inRange, sound.bound.weaken le⟩

lemma Sound.moneyRange {coin : Coin}
  (hs : v.peekCoin o = some coin) : moneyRange coin.out.nValue = true :=
  sound.inRange v.peekCoin (peekCoin_mem_views v) o coin hs

end

lemma InRange.base {base : CoinsView} (hr : InRange (.cache l base)) : InRange base :=
  fun hs hm => hr hs (.tail _ hm)

section
variable {l l' : CacheLayer} {base : CoinsView} {o : COutPoint} {e : CCoinsCacheEntry}

/-- What an entry over a view makes an outpoint worth. -/
def worthOver (base : CoinsView) (o : COutPoint) (e : CCoinsCacheEntry) : ℕ :=
  value e.unspent + (buried base o + if e.fresh then value (base.peekCoin o) else 0)

lemma worth_of_entry (hf : l.entry o = some e) : worth (.cache l base) o = worthOver base o e := by
  simp [worth, worthOver, buried, topFresh, peekCoin_of_entry l base o hf, hf]

lemma worth_of_no_entry (hm : l.entry o = none) : worth (.cache l base) o = worth base o := by
  simp [worth, buried, topFresh, peekCoin_of_no_entry l base o hm, hm]

lemma worth_of_other {x : Option CCoinsCacheEntry} {o' : COutPoint} (h : Replaced l l' o x)
  (ne : o' ≠ o) : worth (.cache l' base) o' = worth (.cache l base) o' := by
  have same : l'.entry o' = l.entry o' := by rw [h.entry, update_of_ne ne]
  have flag : topFresh l' o' = topFresh l o' := by rw [topFresh, topFresh, same]
  simp [worth, buried, flag, peekCoin, same]

lemma worthOver_clean {strict : Bool} (hv : EntryValid strict (base.peekCoin o) e)
  (hc : e.dirty = false) : worthOver base o e = worth base o := by
  have below := hv.clean hc
  have notFresh : e.fresh = false := by
    cases h : e.fresh with
    | false => rfl
    | true => simp [hv.fresh h] at hc
  simp [worthOver, worth, notFresh, below, unspent_of_not_isSpent (peekCoin_unspent base o below)]

end

/-- A change of the top layer at one outpoint keeps all coins in range if the coin shown
there is. -/
lemma InRange.change {l' : CacheLayer} {base : CoinsView} {x : Option CCoinsCacheEntry}
  (hr : InRange (.cache l base)) (h : Replaced l l' o x)
  (self : ∀ coin, (cache l' base).peekCoin o = some coin → moneyRange coin.out.nValue = true) :
  InRange (.cache l' base) := by
  intro hsh hm
  rcases mem_cons.mp hm with rfl | lower
  · intro o' coin hf
    by_cases hs : o' = o
    · subst hs
      exact self coin hf
    · refine hr _ (.head _) o' coin ?_
      simpa [peekCoin, h.entry, hs] using hf
  · exact hr hsh (.tail _ lower)

section
variable {v v' : CCoinsViewCache} {o : COutPoint} {coin : Coin} {possibleOverwrite : Bool}

/-- Adding a coin adds at most its value, whether or not it was an overwrite. -/
lemma addCoin_sound {B : ℕ} (sound : Sound v.toView B) (hr : moneyRange coin.out.nValue = true)
  (ok : v.addCoin o coin possibleOverwrite = .ok v') : Sound v'.toView (B + value (some coin)) := by
  obtain ⟨unspent, ⟨-, rfl⟩ | ⟨l, rfl, -, ho, replaced⟩⟩ := addCoin_ok ok
  · exact sound.weaken (Nat.le_add_right _ _)
  set old := (v.layer.entry o).getD new with hold
  set e : CCoinsCacheEntry := ⟨coin, true, old.fresh || (!possibleOverwrite && !old.dirty)⟩ with he
  have valid := sound.valid
  have shown : e.unspent = some coin := unspent_of_not_isSpent unspent
  have shows := replaced.shows sound.valid (by simpa using entryValid_written unspent (by simp))
  have self : l.entry o = some e := by rw [replaced.entry, update_self]
  refine ⟨shows.valid, InRange.change sound.inRange replaced ?_, ?_⟩
  · intro coin' hf
    rw [peekCoin_of_entry l v.base o self, shown] at hf
    obtain rfl : coin = coin' := Option.some.inj hf
    exact hr
  refine sound.bound.add_at (a := o) (fun o' ne => ?_) ?_
  · exact (worth_of_other replaced ne).le
  show worth (.cache l v.base) o ≤ worth (.cache v.layer v.base) o + _
  rw [worth_of_entry self]
  unfold worthOver
  rw [shown]
  cases hf : v.layer.entry o with
  | none =>
    rw [worth_of_no_entry hf]
    unfold worth
    split <;> omega
  | some e₀ =>
    have oldEq : old = e₀ := by simp [hold, hf]
    have sameFlag : e.fresh = e₀.fresh := by
      cases hover : possibleOverwrite with
      | true => simp [he, oldEq, hover]
      | false =>
        have spent := ho hover
        rw [oldEq] at spent
        simp [he, oldEq, ((valid.1.entries o e₀ hf).spent spent).2.1]
    rw [worth_of_entry hf]
    unfold worthOver
    rw [sameFlag]
    omega

end

/-- Spending the coin shown takes its value away; nothing else changes. -/
structure Spends (v v' : CCoinsViewCache) (o : COutPoint) (coin : Coin) (B : ℕ) : Prop where
  sound : Sound v'.toView (B - value (some coin))
  afford : value (some coin) ≤ B
  others : ∀ o', o' ≠ o → v'.peekCoin o' = v.peekCoin o'

lemma spendCoin_sound {v : CCoinsViewCache} {o : COutPoint} {coin : Coin} {B : ℕ}
  (sound : Sound v.toView B) (hs : v.peekCoin o = some coin) :
  (v.spendCoin o).1 = some coin ∧ Spends v (v.spendCoin o).2 o coin B := by
  have fetches := fetchCoin_fetches sound.valid o
  obtain ⟨x, v₁, h⟩ : ∃ x v₁, v.fetchCoin o = (x, v₁) := ⟨_, _, rfl⟩
  rw [h] at fetches
  have sound₁ : Sound v₁.toView B := sound.congr fetches.valid fetches.views fetches.cacheFlags
  have samePeek : v₁.peekCoin = v.peekCoin := peekCoin_eq_of_views fetches.views
  obtain ⟨e, rfl, unspent⟩ := Option.bind_eq_some_iff.mp (fetches.shown.trans hs)
  have before : worth v₁.toView o = worthOver v₁.base o e := worth_of_entry fetches.entry
  rw [worthOver, unspent] at before
  obtain ⟨l, spent, replaced⟩ := spendCoin_eq h
  have shows := replaced.shows sound₁.valid (by cases e.fresh <;> simp [entryValid_spent])
  -- what is left at the outpoint is in range, and worth less by the coin
  obtain ⟨inRange, less⟩ : (∀ coin, (cache l v₁.base).peekCoin o = some coin →
    moneyRange coin.out.nValue) ∧
    worth (.cache l v₁.base) o + value (some coin) ≤ worth v₁.toView o := by
    rw [before]
    cases hf : e.fresh with
    | true =>
      have gone : l.entry o = none := by rw [replaced.entry, update_self, hf, if_pos rfl]
      rw [worth_of_no_entry gone, peekCoin_of_no_entry _ _ _ gone, worth, if_pos rfl]
      exact ⟨sound₁.inRange.base _ (peekCoin_mem_views _) o, by omega⟩
    | false =>
      have gone : l.entry o = some ⟨empty, true, false⟩ := by
        rw [replaced.entry, update_self, hf, if_neg Bool.false_ne_true]
      have none : CCoinsCacheEntry.unspent ⟨empty, true, false⟩ = none := rfl
      rw [worth_of_entry gone, peekCoin_of_entry _ _ _ gone, worthOver, none, value_none]
      refine ⟨by simp, ?_⟩
      simp only [Bool.false_eq_true, if_false]
      omega
  rw [spent, (unspent_eq_some unspent).1]
  refine ⟨rfl, ⟨shows.valid, InRange.change sound₁.inRange replaced inRange, ?_⟩, ?_, ?_⟩
  · exact sound₁.bound.sub_at (a := o) (fun o' ne => (worth_of_other replaced ne).le) less
  · have le := sound₁.bound.le o
    omega
  · intro o' ne
    rw [shows.peekCoin, update_of_ne ne, samePeek]

variable {e : CCoinsCacheEntry} {v : CCoinsViewCache} {o : COutPoint} {l l' : CacheLayer}
  {base v' : CoinsView} {B : ℕ}

/-- What writing one dirty entry into the view below does, even if its FRESH flag was
misapplied. -/
structure Wrote (v v' : CoinsView) (o : COutPoint) (e : CCoinsCacheEntry) : Prop where
  valid : Valid false v'
  peek_others : ∀ o', o' ≠ o → v'.peekCoin o' = v.peekCoin o'
  worth_others : ∀ o', o' ≠ o → worth v' o' = worth v o'
  below : (views v').tail = (views v).tail
  unspent : e.coin.isSpent = false → v'.peekCoin o = some e.coin
  shown : ∀ coin, v'.peekCoin o = some coin →
    e.unspent = some coin ∨ ∃ shown ∈ views v, shown o = some coin
  worth_self : worth v' o ≤ worthOver v o e

lemma bottom_wrote (b : CoinsViewBottom) (hd : e.dirty = true) :
  Wrote (.bottom b) (.bottom (b.batchWriteEntry (o, e))) o e := by
  have peek : (bottom (b.batchWriteEntry (o, e))).peekCoin
    = update (bottom b).peekCoin o e.unspent :=
    bottom_batchWriteEntry b hd
  refine ⟨trivial, fun o' ne => ?_, fun o' ne => ?_, rfl, fun unspent => ?_, ?_, ?_⟩
  · rw [peek, update_of_ne ne]
  · simp only [worth, buried, peek, update_of_ne ne]
  · rw [peek, update_self, unspent_of_not_isSpent unspent]
  · intro coin hf
    rw [peek, update_self] at hf
    exact Or.inl hf
  · simp only [worth, worthOver, buried, peek, update_self]
    omega

lemma layer_wrote (hv : Valid false (.cache l base)) (hd : e.dirty = true)
  (hev : EntryValid false ((cache l base).peekCoin o) e)
  (ok : l.batchWriteEntry (o, e) = .ok l') : Wrote (.cache l base) (.cache l' base) o e := by
  obtain ⟨us, -, -, throws⟩ | ⟨l₁, ok₁, replaced⟩ := batchWriteEntry_cases hd hev
  · rw [throws] at ok
    cases ok
  obtain rfl := Except.ok.inj (ok₁.symm.trans ok)
  have shows := Replaced.shows (v := ⟨l, base⟩) replaced hv (merged_valid hv hev)
  have self : l₁.entry o = merged (l.entry o) e := by rw [replaced.entry, update_self]
  -- the coin that is shown then, and what the outpoint is worth
  obtain ⟨unspent, shown, worth_self⟩ :
    (e.coin.isSpent = false → (cache l₁ base).peekCoin o = some e.coin) ∧
    (∀ coin, (cache l₁ base).peekCoin o = some coin →
      e.unspent = some coin ∨ ∃ shown ∈ views (.cache l base), shown o = some coin) ∧
    worth (.cache l₁ base) o ≤ worthOver (.cache l base) o e := by
    have put {fresh : Bool} (entry : l₁.entry o = some ⟨e.coin, true, fresh⟩) :
      (cache l₁ base).peekCoin o = e.unspent := by
      rw [peekCoin_of_entry _ _ _ entry]
      rfl
    cases found : l.entry o with
    | none =>
      rw [found, merged] at self
      rw [put self, worth_of_entry self]
      refine ⟨unspent_of_not_isSpent, fun coin => .inl, ?_⟩
      simp [worthOver, CCoinsCacheEntry.unspent, buried, topFresh, found,
        peekCoin_of_no_entry l base o found]
    | some us =>
      have flag : topFresh l o = us.fresh := by simp [topFresh, found]
      rw [found, merged] at self
      split_ifs at self with gone
      · obtain ⟨usFresh, isSpent⟩ := (Bool.and_eq_true _ _).mp gone
        rw [worth_of_no_entry self, peekCoin_of_no_entry _ _ _ self]
        refine ⟨by simp [isSpent],
          fun coin hs => .inr ⟨_, .tail _ (peekCoin_mem_views base), hs⟩, ?_⟩
        simp only [worth, worthOver, buried, flag, usFresh, if_true]
        omega
      · rw [put self, worth_of_entry self]
        refine ⟨unspent_of_not_isSpent, fun coin => .inl, ?_⟩
        simp only [worthOver, CCoinsCacheEntry.unspent, buried, flag]
        omega
  refine ⟨shows.valid, fun o' ne => ?_, fun o' => worth_of_other replaced, rfl, unspent, shown,
    worth_self⟩
  exact (congrFun shows.peekCoin o').trans (update_of_ne ne _ _)

lemma writeEntry_wrote {v : CoinsView} (hv : Valid false v) (hd : e.dirty = true)
  (hev : EntryValid false (v.peekCoin o) e) (ok : writeEntry v (o, e) = .ok v') :
  Wrote v v' o e := by
  cases v with
  | bottom b =>
    cases ok
    exact bottom_wrote b hd
  | cache l base =>
    obtain ⟨l', written, rfl⟩ := Outcome.map_eq_ok.mp ok
    exact layer_wrote hv hd hev written

lemma worthOver_congr {v : CoinsView} (peek : v'.peekCoin o = v.peekCoin o)
  (hs : worth v' o = worth v o) (e : CCoinsCacheEntry) : worthOver v' o e = worthOver v o e := by
  have buriedSame : buried v' o = buried v o := by
    unfold worth at hs
    rw [peek] at hs
    omega
  simp only [worthOver, buriedSame, peek]

/-- What writing several entries, at different outpoints, does. -/
structure WroteAll (v v' : CoinsView) (entries : List (COutPoint × CCoinsCacheEntry)) :
  Prop where
  valid : Valid false v'
  below : (views v').tail = (views v).tail
  peek_others : ∀ o, o ∉ entries.map Prod.fst → v'.peekCoin o = v.peekCoin o
  worth_others : ∀ o, o ∉ entries.map Prod.fst → worth v' o = worth v o
  unspent : ∀ o e, (o, e) ∈ entries → e.coin.isSpent = false → v'.peekCoin o = some e.coin
  shown : ∀ o e, (o, e) ∈ entries → ∀ coin, v'.peekCoin o = some coin →
    e.unspent = some coin ∨ ∃ shown ∈ views v, shown o = some coin
  worth_self : ∀ o e, (o, e) ∈ entries → worth v' o ≤ worthOver v o e

lemma foldlM_wroteAll {v : CoinsView} (hv : Valid false v)
  (entries : List (COutPoint × CCoinsCacheEntry)) (nodup : (entries.map Prod.fst).Nodup)
  (hw : ∀ p ∈ entries, Writable false v.peekCoin p)
  (ok : entries.foldlM writeEntry v = .ok v') : WroteAll v v' entries := by
  induction entries generalizing v with
  | nil =>
    cases ok
    exact ⟨hv, rfl, fun _ _ => rfl, fun _ _ => rfl, by simp, by simp, by simp⟩
  | cons p rest ih =>
    obtain ⟨o, e⟩ := p
    simp only [map_cons, nodup_cons] at nodup
    obtain ⟨v₁, ok₁, hor⟩ := bind_eq_ok.mp (by rwa [foldlM_cons] at ok)
    obtain ⟨hd, hev⟩ := hw (o, e) (.head _)
    have wrote := writeEntry_wrote hv hd hev ok₁
    have apart : ∀ q ∈ rest, q.1 ≠ o := by
      intro q hm hs
      exact nodup.1 (hs ▸ mem_map_of_mem hm)
    have later := ih wrote.valid nodup.2 (fun q hm => by
      obtain ⟨hd, old⟩ := hw q (.tail _ hm)
      rw [← wrote.peek_others q.1 (apart q hm)] at old
      exact ⟨hd, old⟩) hor
    refine ⟨later.valid, later.below.trans wrote.below, ?_, ?_, ?_, ?_, ?_⟩
    · intro o' ha
      simp only [map_cons, mem_cons, not_or] at ha
      exact (later.peek_others o' ha.2).trans (wrote.peek_others o' ha.1)
    · intro o' ha
      simp only [map_cons, mem_cons, not_or] at ha
      exact (later.worth_others o' ha.2).trans (wrote.worth_others o' ha.1)
    · intro o' e' hm unspent
      rcases mem_cons.mp hm with hs | hm
      · cases hs
        exact (later.peek_others o nodup.1).trans (wrote.unspent unspent)
      · exact later.unspent o' e' hm unspent
    · intro o' e' hm coin hf
      rcases mem_cons.mp hm with hs | hm
      · cases hs
        rw [later.peek_others o nodup.1] at hf
        exact wrote.shown coin hf
      rcases later.shown o' e' hm coin hf with own | ⟨hsh, inViews, at'⟩
      · exact Or.inl own
      right
      rw [views_eq_cons v₁] at inViews
      rcases mem_cons.mp inViews with rfl | lower
      · exact ⟨_, peekCoin_mem_views v, (wrote.peek_others o' (apart _ hm)).symm.trans at'⟩
      · rw [wrote.below] at lower
        exact ⟨hsh, mem_of_mem_tail lower, at'⟩
    · intro o' e' hm
      rcases mem_cons.mp hm with hs | hm
      · cases hs
        rw [later.worth_others o nodup.1]
        exact wrote.worth_self
      · have ne : o' ≠ o := apart (o', e') hm
        rw [← worthOver_congr (wrote.peek_others o' ne) (wrote.worth_others o' ne)]
        exact later.worth_self o' e' hm

/-- Writing a cache down leaves the view below worth no more than the whole was, and
showing the unspent coins of the cache. -/
lemma batchWrite_sound (sound : Sound v.toView B)
  (ok : v.base.batchWrite v.layer.cursor v.layer.hashBlock = .ok base) :
  Sound base B ∧ ∀ o e, v.layer.entry o = some e → e.coin.isSpent = false →
    base.peekCoin o = some e.coin := by
  have layerValid : LayerValid false v.base.peekCoin v.layer := sound.valid.1
  have inRange : InRange (.cache v.layer v.base) := sound.inRange
  rw [batchWrite_eq] at ok
  obtain ⟨base₀, written, rfl⟩ := map_eq_ok.mp ok
  have wrote := foldlM_wroteAll sound.valid.2 _ (cursor_keys_nodup layerValid.linked)
    (cursor_writable layerValid) written
  have keys : ∀ o, o ∉ v.layer.cursor.map Prod.fst ↔ (v.layer.entry o).any isFlagged = false := by
    intro o
    rw [cursor_keys layerValid.linked, layerValid.linked.mem_iff, Bool.not_eq_true]
  have peekSame : (setHash base₀ v.layer.hashBlock).peekCoin = base₀.peekCoin :=
    peekCoin_eq_of_views (setHash_views base₀ _)
  have soundBase : Sound base₀ B := by
    refine ⟨wrote.valid, ?_, sound.bound.mono fun o => ?_⟩
    · intro hs hm
      rw [views_eq_cons base₀, wrote.below] at hm
      rcases mem_cons.mp hm with rfl | lower
      · intro o coin hf
        by_cases hl : o ∈ v.layer.cursor.map Prod.fst
        · obtain ⟨⟨o', e⟩, inCursor, rfl⟩ := mem_map.mp hl
          rcases wrote.shown o' e inCursor coin hf with own | ⟨hs, inViews, atO⟩
          · refine sound.moneyRange (o := o') ?_
            rw [← own]
            exact peekCoin_of_entry _ _ _ ((mem_cursor layerValid.linked o' e).mp inCursor).1
          · exact inRange.base hs inViews o' coin atO
        · rw [wrote.peek_others o hl] at hf
          exact inRange.base _ (peekCoin_mem_views _) o coin hf
      · exact inRange.base hs (mem_of_mem_tail lower)
    · show worth base₀ o ≤ worth (.cache v.layer v.base) o
      cases hf : v.layer.entry o with
      | none =>
        rw [worth_of_no_entry hf, wrote.worth_others o ((keys o).mpr (by simp [hf]))]
      | some e =>
        rw [worth_of_entry hf]
        cases flagged : e.isFlagged with
        | true =>
          exact wrote.worth_self o e ((mem_cursor layerValid.linked o e).mpr ⟨hf, flagged⟩)
        | false =>
          have entryValid := layerValid.entries o e hf
          rw [wrote.worth_others o ((keys o).mpr (by simp [hf, flagged])),
            worthOver_clean entryValid (clean_of_unflagged entryValid flagged)]
  refine ⟨soundBase.congr (setHash_valid wrote.valid _) (setHash_views _ _)
    (setHash_cacheFlags _ _), fun o e hf unspent => ?_⟩
  rw [peekSame]
  cases flagged : e.isFlagged with
  | true =>
    exact wrote.unspent o e ((mem_cursor layerValid.linked o e).mpr ⟨hf, flagged⟩) unspent
  | false =>
    have entryValid := layerValid.entries o e hf
    rw [wrote.peek_others o ((keys o).mpr (by simp [hf, flagged]))]
    exact entryValid.clean (clean_of_unflagged entryValid flagged)

/-- A cache that holds clean entries only adds nothing to the view below. -/
lemma Sound.layered (sound : Sound base B) (hv : LayerValid false base.peekCoin l)
  (hc : ∀ o e, l.entry o = some e → e.dirty = false) : Sound (.cache l base) B := by
  have same : ∀ o, (cache l base).peekCoin o = base.peekCoin o := by
    intro o
    cases hf : l.entry o with
    | none => exact peekCoin_of_no_entry l base o hf
    | some e =>
      have below := (hv.entries o e hf).clean (hc o e hf)
      rw [peekCoin_of_entry l base o hf, below,
        unspent_of_not_isSpent (peekCoin_unspent base o below)]
  refine ⟨⟨hv, sound.valid⟩, ?_, sound.bound.mono fun o => ?_⟩
  · intro hs hm
    rcases mem_cons.mp hm with rfl | lower
    · intro o coin hf
      rw [same o] at hf
      exact sound.moneyRange hf
    · exact sound.inRange hs lower
  · cases hf : l.entry o with
    | none => rw [worth_of_no_entry hf]
    | some e =>
      rw [worth_of_entry hf, worthOver_clean (hv.entries o e hf) (hc o e hf)]

lemma flush_sound {v' : CCoinsViewCache} (sound : Sound v.toView B)
  (ok : v.flush = .ok v') : Sound v'.base B ∧ Sound v'.toView B := by
  obtain ⟨base, written, rfl⟩ := map_eq_ok.mp ok
  have below := (batchWrite_sound sound written).1
  refine ⟨below, below.layered (layerValid_empty rfl rfl) fun o e hf => ?_⟩
  cases hf

lemma sync_sound {v' : CCoinsViewCache} (sound : Sound v.toView B)
  (ok : v.sync = .ok v') : Sound v'.toView B := by
  obtain ⟨base, written, rest⟩ := bind_eq_ok.mp ok
  obtain ⟨below, hs⟩ := batchWrite_sound sound written
  have layerValid := sound.valid.1
  obtain ⟨he, entries⟩ := foldl_nextAndMaybeErase layerValid.linked
  rw [if_neg (by simp [he])] at rest
  cases rest
  set layer := v.layer.cursor.foldl CacheLayer.nextAndMaybeErase v.layer
  have left : ∀ o e, layer.entry o = some e →
    e.isFlagged = false ∧ base.peekCoin o = some e.coin := by
    intro o e hf
    rw [entries o] at hf
    obtain ⟨e₀, found₀, hk⟩ := Option.bind_eq_some_iff.mp hf
    obtain ⟨unflagged, hsa, unspent⟩ := synced_left (layerValid.entries o e₀ found₀) hk
    rw [hsa]
    exact ⟨unflagged, hs o e₀ found₀ unspent⟩
  have cleanEntry : ∀ o e, layer.entry o = some e → e = ⟨e.coin, false, false⟩ := by
    intro o e hf
    have unflagged := (left o e hf).1
    rw [isFlagged, Bool.or_eq_false_iff] at unflagged
    obtain ⟨coin, hd, fresh⟩ := e
    obtain ⟨rfl, rfl⟩ : hd = false ∧ fresh = false := unflagged
    rfl
  refine below.layered ⟨fun o e hf => ?_, fun o => ?_, by simp [he]⟩ fun o e hf => ?_
  · rw [cleanEntry o e hf]
    exact entryValid_fetched (left o e hf).2 (peekCoin_unspent base o (left o e hf).2)
  · rw [he]
    cases hf : layer.entry o with
    | none => simp
    | some e => simp [(left o e hf).1]
  · rw [cleanEntry o e hf]

end CoinsWorth
