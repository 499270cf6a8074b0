import Andaluzcoin.CoinsFlush

/-!
# The bookkeeping of a coins cache

The flags, the linked list and the two counters of one `CCoinsViewCache`, over any sequence of calls.
The view below may change in between in any way, and the entries that a child writes are arbitrary. A
call that throws or asserts has no state after it.
-/

namespace CoinsBookkeeping

open Transaction Coins CoinsInvariant CoinsFlush List Option CacheLayer

/-- `EmplaceCoinInternalDANGER`. -/
def emplaceCoinInternalDANGER (l : CacheLayer) (o : COutPoint) (coin : Coin) : CacheLayer :=
  match l.entry o with
  | some _ => l
  | none =>
    { l.putEntry o ⟨coin, true, false⟩ with
      dirtyCount := l.dirtyCount + 1
      cachedCoinsUsage := l.cachedCoinsUsage + dynamicMemoryUsage coin }

/-- What happens to a cache: a call of one of its functions, or a change of the view below. -/
inductive Event where
  | fetchCoin (o : COutPoint)
  | addCoin (o : COutPoint) (coin : Coin) (possibleOverwrite : Bool)
  | spendCoin (o : COutPoint)
  | uncache (o : COutPoint)
  | emplaceCoinInternalDANGER (o : COutPoint) (coin : Coin)
  | flush
  | sync
  | reset
  | batchWrite (entries : List (COutPoint × CCoinsCacheEntry)) (hashBlock : Uint256)
  | baseChanged (base : CoinsView)

/-- The assertion of `NextAndMaybeErase` about the entries that it erases. -/
def SpentAreCleared (l : CacheLayer) : Prop :=
  ∀ p ∈ l.cursor, p.2.coin.isSpent = true → dynamicMemoryUsage p.2.coin = 0

instance (l : CacheLayer) : Decidable (SpentAreCleared l) := List.decidableBAll _ _

def step (v : CCoinsViewCache) : Event → Option CCoinsViewCache
  | .fetchCoin o => some (v.fetchCoin o).2
  | .addCoin o coin possibleOverwrite => (v.addCoin o coin possibleOverwrite).toOption
  | .spendCoin o => some (v.spendCoin o).2
  | .uncache o => some (v.uncache o)
  | .emplaceCoinInternalDANGER o coin =>
    some { v with layer := emplaceCoinInternalDANGER v.layer o coin }
  | .flush => v.flush.toOption
  | .sync => if SpentAreCleared v.layer then v.sync.toOption else none
  | .reset => some v.reset
  | .batchWrite entries hashBlock =>
    (v.layer.batchWrite entries hashBlock).toOption.map fun l => { v with layer := l }
  | .baseChanged base => some { v with base := base }

def run (v : CCoinsViewCache) (events : List Event) : Option CCoinsViewCache := events.foldlM step v

/-- The arguments of `TrySub` in the rounds of a cursor. -/
def cursorSubs (dirtyCount : ℕ) : List (COutPoint × CCoinsCacheEntry) → List (ℕ × ℕ)
  | [] => []
  | p :: rest => (dirtyCount, p.2.dirty.toNat) :: cursorSubs (trySub dirtyCount p.2.dirty.toNat) rest

/-- The arguments of `TrySub` where an entry leaves the counters. -/
def entrySubs (l : CacheLayer) (e : CCoinsCacheEntry) : List (ℕ × ℕ) :=
  [(l.dirtyCount, e.dirty.toNat), (l.cachedCoinsUsage, dynamicMemoryUsage e.coin)]

/-- The arguments of `TrySub` in one iteration of `BatchWrite`. -/
def batchWriteEntrySubs (l : CacheLayer) (p : COutPoint × CCoinsCacheEntry) : List (ℕ × ℕ) :=
  if !p.2.dirty then []
  else
    match l.entry p.1 with
    | none => []
    | some us =>
      if p.2.fresh && !us.coin.isSpent then []
      else if us.fresh && p.2.coin.isSpent then entrySubs l us
      else [(l.cachedCoinsUsage, dynamicMemoryUsage us.coin)]

def batchWriteSubs (l : CacheLayer) : List (COutPoint × CCoinsCacheEntry) → List (ℕ × ℕ)
  | [] => []
  | p :: rest =>
    batchWriteEntrySubs l p ++
      match l.batchWriteEntry p with
      | .ok l => batchWriteSubs l rest
      | .error _ => []

/-- The arguments of every `TrySub` in a call, in their order. -/
def trySubs (v : CCoinsViewCache) : Event → List (ℕ × ℕ)
  | .addCoin o coin possibleOverwrite =>
    match v.layer.entry o with
    | none => []
    | some old =>
      if coin.isSpent || isUnspendable coin.out.scriptPubKey ||
        (!possibleOverwrite && !old.coin.isSpent) then [] else entrySubs v.layer old
  | .spendCoin o =>
    match v.fetchCoin o with
    | (none, _) => []
    | (some e, v) => entrySubs v.layer e
  | .uncache o =>
    match v.layer.entry o with
    | none => []
    | some e => if e.dirty then [] else [(v.layer.cachedCoinsUsage, dynamicMemoryUsage e.coin)]
  | .flush | .sync => cursorSubs v.layer.dirtyCount v.layer.cursor
  | .batchWrite entries _ => batchWriteSubs v.layer entries
  | .fetchCoin _ | .emplaceCoinInternalDANGER _ _ | .reset | .baseChanged _ => []

/-- The combinations of a spent coin, DIRTY and FRESH that are valid. -/
def ValidState (e : CCoinsCacheEntry) : Prop :=
  (e.coin.isSpent, e.dirty, e.fresh) ∈
    [(false, true, true), (false, true, false), (false, false, false), (true, true, false)]

/-- What the bookkeeping of a cache keeps. -/
structure Booked (l : CacheLayer) : Prop where
  states : ∀ o e, l.entry o = some e → ValidState e
  linked : Linked l
  dirtyCount : l.dirtyCount = l.cacheCoins.entries.countP fun s => s.2.dirty
  usage : l.cachedCoinsUsage = (l.cacheCoins.entries.map fun s => dynamicMemoryUsage s.2.coin).sum

section
variable {l l' : CacheLayer} {o : COutPoint} {e : CCoinsCacheEntry}

/-- The sum of a number over the entries of a map. -/
def total (f : CCoinsCacheEntry → ℕ) (m : CCoinsMap) : ℕ := (m.entries.map fun s => f s.2).sum

/-- The number of the entry at an outpoint. -/
def charge (f : CCoinsCacheEntry → ℕ) (l : CacheLayer) (o : COutPoint) : ℕ := (l.entry o).elim 0 f

lemma total_eq_erase (f : CCoinsCacheEntry → ℕ) (m : CCoinsMap) (o : COutPoint) :
  total f m = total f (m.erase o) + (m.lookup o).elim 0 f := by
  cases found : m.lookup o with
  | none =>
    have absent : o ∉ m.entries.keys := AList.lookup_eq_none.mp found
    have same : (m.erase o).entries = m.entries := kerase_of_notMem_keys absent
    simp [total, same]
  | some e =>
    have present : o ∈ m.entries.keys := AList.lookup_isSome.mp (by simp [found])
    obtain ⟨e', front, back, -, split, erased⟩ := exists_of_kerase present
    have same : e = e' := by
      have member : e' ∈ m.lookup o := AList.mem_lookup_iff.mpr (by rw [split]; simp)
      exact some.inj (found.symm.trans member)
    have rest : (m.erase o).entries = front ++ back := erased
    rw [total, total, split, rest, same]
    simp only [map_append, map_cons, sum_append, sum_cons, elim_some]
    omega

lemma total_insert (f : CCoinsCacheEntry → ℕ) (m : CCoinsMap) (o : COutPoint)
  (e : CCoinsCacheEntry) : total f (m.insert o e) = total f (m.erase o) + f e := by
  simp [total, AList.entries_insert, AList.erase, add_comm]

def dirtyOf (e : CCoinsCacheEntry) : ℕ := e.dirty.toNat

def usageOf (e : CCoinsCacheEntry) : ℕ := dynamicMemoryUsage e.coin

lemma total_dirtyOf (m : CCoinsMap) : total dirtyOf m = m.entries.countP fun s => s.2.dirty := by
  rw [total]
  induction m.entries with
  | nil => rfl
  | cons s rest ih =>
    rw [map_cons, sum_cons, countP_cons, ih, dirtyOf]
    cases s.2.dirty <;> simp [add_comm]

section
variable (hb : Booked l)
include hb

lemma Booked.dirtyCount_eq : l.dirtyCount = total dirtyOf l.cacheCoins := by
  rw [hb.dirtyCount, total_dirtyOf]

lemma Booked.covers (o : COutPoint) :
  charge dirtyOf l o ≤ l.dirtyCount ∧ charge usageOf l o ≤ l.cachedCoinsUsage := by
  have dirty := total_eq_erase dirtyOf l.cacheCoins o
  have usage := total_eq_erase usageOf l.cacheCoins o
  rw [← hb.dirtyCount_eq] at dirty
  have total_usage : l.cachedCoinsUsage = total usageOf l.cacheCoins := hb.usage
  rw [← total_usage] at usage
  exact ⟨dirty ▸ Nat.le_add_left _ _, usage ▸ Nat.le_add_left _ _⟩

lemma Booked.put (hv : ValidState e) (hc : l'.cacheCoins = l.cacheCoins.insert o e)
  (hfl : l'.flagged = l.relink o e.isFlagged)
  (hd : l'.dirtyCount + charge dirtyOf l o = l.dirtyCount + dirtyOf e)
  (hu : l'.cachedCoinsUsage + charge usageOf l o = l.cachedCoinsUsage + usageOf e) : Booked l' := by
  have put := replaced_put hc hfl
  refine ⟨fun o' e' hf => ?_, put.linked hb.linked, ?_, ?_⟩
  · rw [put.entry] at hf
    by_cases hs : o' = o
    · rw [hs, Function.update_self, some.injEq] at hf
      exact hf ▸ hv
    · exact hb.states o' e' (by rwa [Function.update_of_ne hs] at hf)
  · have before := total_eq_erase dirtyOf l.cacheCoins o
    rw [← total_dirtyOf, hc, total_insert]
    rw [hb.dirtyCount_eq, before] at hd
    simp only [charge, CacheLayer.entry] at hd
    omega
  · have before := total_eq_erase usageOf l.cacheCoins o
    have after := total_insert usageOf l.cacheCoins o e
    have total_usage : l.cachedCoinsUsage = total usageOf l.cacheCoins := hb.usage
    rw [total_usage, before] at hu
    simp only [charge, CacheLayer.entry] at hu
    rw [hc]
    change _ = total usageOf _
    omega

lemma Booked.erase (hc : l'.cacheCoins = l.cacheCoins.erase o) (hfl : l'.flagged = l.relink o false)
  (hd : l'.dirtyCount + charge dirtyOf l o = l.dirtyCount)
  (hu : l'.cachedCoinsUsage + charge usageOf l o = l.cachedCoinsUsage) : Booked l' := by
  have erased := replaced_erase hc hfl
  refine ⟨fun o' e' hf => ?_, erased.linked hb.linked, ?_, ?_⟩
  · rw [erased.entry] at hf
    by_cases hs : o' = o
    · rw [hs, Function.update_self] at hf
      cases hf
    · exact hb.states o' e' (by rwa [Function.update_of_ne hs] at hf)
  · have before := total_eq_erase dirtyOf l.cacheCoins o
    rw [← total_dirtyOf, hc]
    rw [hb.dirtyCount_eq, before] at hd
    exact add_right_cancel hd
  · have before := total_eq_erase usageOf l.cacheCoins o
    have total_usage : l.cachedCoinsUsage = total usageOf l.cacheCoins := hb.usage
    rw [total_usage, before] at hu
    rw [hc]
    exact add_right_cancel hu

end

lemma trySub_add {i j : ℕ} (fits : j ≤ i) : trySub i j + j = i := by
  rw [trySub, if_neg (not_lt.mpr fits), Nat.sub_add_cancel fits]

end

section
variable {l l' : CacheLayer} {v v' : CCoinsViewCache} {o : COutPoint} {e : CCoinsCacheEntry}
  {coin : Coin} {dirtyCount : ℕ}

lemma charge_of_entry (f : CCoinsCacheEntry → ℕ) (hf : l.entry o = some e) :
  charge f l o = f e := by
  rw [charge, hf]
  rfl

lemma charge_of_no_entry (f : CCoinsCacheEntry → ℕ) (hm : l.entry o = none) : charge f l o = 0 := by
  rw [charge, hm]
  rfl

lemma Booked.entry_covers (hb : Booked l) (hf : l.entry o = some e) :
  e.dirty.toNat ≤ l.dirtyCount ∧ dynamicMemoryUsage e.coin ≤ l.cachedCoinsUsage := by
  have covers := hb.covers o
  rwa [charge_of_entry dirtyOf hf, charge_of_entry usageOf hf] at covers

lemma Booked.entrySubs_fit (hb : Booked l) (hf : l.entry o = some e) :
  ∀ s ∈ entrySubs l e, s.2 ≤ s.1 := by
  obtain ⟨hd, usage⟩ := hb.entry_covers hf
  simp [entrySubs, hd, usage]

lemma Booked.insert (hb : Booked l) (hm : l.entry o = none) (hv : ValidState e)
  (hd : e.dirty = true) : Booked { l.putEntry o e with
    dirtyCount := l.dirtyCount + 1
    cachedCoinsUsage := l.cachedCoinsUsage + dynamicMemoryUsage e.coin } := by
  refine hb.put hv rfl rfl ?_ ?_
  · rw [charge_of_no_entry dirtyOf hm, dirtyOf, hd]
    rfl
  · rw [charge_of_no_entry usageOf hm]
    rfl

lemma charge_getD (f : CCoinsCacheEntry → ℕ) (new : f .new = 0) (l : CacheLayer) (o : COutPoint) :
  charge f l o = f ((l.entry o).getD .new) := by
  cases found : l.entry o with
  | none => rw [charge_of_no_entry f found, getD_none, new]
  | some e => rw [charge_of_entry f found, getD_some]

/-- A dirty entry takes the place of what was there. -/
lemma Booked.replace (hb : Booked l) {old : CCoinsCacheEntry}
  (ho : (l.entry o).getD .new = old) (hv : ValidState e) (hd : e.dirty = true)
  {usage : ℕ} (hc : dirtyCount = trySub l.dirtyCount old.dirty.toNat + 1)
  (used : usage = trySub l.cachedCoinsUsage (dynamicMemoryUsage old.coin) +
    dynamicMemoryUsage e.coin) :
  Booked { l.putEntry o e with dirtyCount := dirtyCount, cachedCoinsUsage := usage } := by
  obtain ⟨hcd, hcu⟩ := hb.covers o
  rw [charge_getD dirtyOf rfl, ho] at hcd
  rw [charge_getD usageOf rfl, ho] at hcu
  have backDirty := trySub_add hcd
  have backUsage := trySub_add hcu
  refine hb.put hv rfl rfl ?_ ?_
  · rw [charge_getD dirtyOf rfl, ho]
    simp only [dirtyOf, hd, Bool.toNat_true] at backDirty ⊢
    omega
  · rw [charge_getD usageOf rfl, ho]
    simp only [usageOf] at backUsage ⊢
    omega

lemma Booked.drop (hb : Booked l) (hf : l.entry o = some e)
  (hc : dirtyCount = trySub l.dirtyCount e.dirty.toNat) : Booked { l.eraseEntry o with
    dirtyCount := dirtyCount
    cachedCoinsUsage := trySub l.cachedCoinsUsage (dynamicMemoryUsage e.coin) } := by
  obtain ⟨hcd, hcu⟩ := hb.entry_covers hf
  refine hb.erase rfl rfl ?_ ?_
  · rw [charge_of_entry dirtyOf hf, hc]
    exact trySub_add hcd
  · rw [charge_of_entry usageOf hf]
    exact trySub_add hcu

lemma emplace_booked (hb : Booked l) (o : COutPoint) (coin : Coin) :
  Booked (emplaceCoinInternalDANGER l o coin) := by
  rw [emplaceCoinInternalDANGER]
  split
  · exact hb
  · next hm =>
    refine hb.insert hm ?_ rfl
    cases spent : coin.isSpent <;> simp [ValidState, spent]

lemma getCoin_unspent (base : CoinsView) {o : COutPoint}
  (hf : (base.getCoin o).1 = some coin) : coin.isSpent = false := by
  cases base with
  | bottom b => exact b.unspent o coin hf
  | cache l base =>
    obtain ⟨e, -, hs⟩ := bind_eq_some_iff.mp hf
    exact (unspent_eq_some hs).2

lemma fetchCoinFromBase_unspent (hf : (v.fetchCoinFromBase o).1 = some coin) :
  coin.isSpent = false := by
  rw [CCoinsViewCache.fetchCoinFromBase] at hf
  split_ifs at hf
  · exact peekCoin_unspent v.base o hf
  · exact getCoin_unspent v.base hf

lemma fetchCoin_booked (hb : Booked v.layer) (o : COutPoint) : Booked (v.fetchCoin o).2.layer ∧
    ∀ e, (v.fetchCoin o).1 = some e → (v.fetchCoin o).2.layer.entry o = some e := by
  rw [CCoinsViewCache.fetchCoin, fetchWith]
  split
  · next e hf =>
    refine ⟨hb, fun e' hs => ?_⟩
    exact hf.trans hs
  · next hm =>
    split
    · next none =>
      refine ⟨hb, fun e hs => ?_⟩
      cases hs
    · next coin hf =>
      have unspent := fetchCoinFromBase_unspent hf
      refine ⟨hb.put (by simp [ValidState, unspent]) rfl rfl ?_ ?_, fun e hs => ?_⟩
      · rw [charge_of_no_entry dirtyOf hm]
        rfl
      · rw [charge_of_no_entry usageOf hm]
        rfl
      · rw [← hs, (replaced_put rfl rfl).entry, Function.update_self]

lemma addCoin_booked (hb : Booked l) {possibleOverwrite : Bool}
  (ok : l.addCoin o coin possibleOverwrite = .ok l') : Booked l' := by
  simp only [CacheLayer.addCoin] at ok
  split_ifs at ok with spent unspendable overwrite
  · obtain rfl := Except.ok.inj ok
    exact hb
  obtain rfl := Except.ok.inj ok
  refine hb.replace rfl ?_ rfl rfl rfl
  generalize (((l.entry o).getD .new).fresh || _) = fresh
  cases fresh <;> simp [ValidState, spent]

lemma spendCoin_booked (hb : Booked v.layer) (o : COutPoint) : Booked (v.spendCoin o).2.layer := by
  obtain ⟨hf, hs⟩ := fetchCoin_booked hb o
  rw [CCoinsViewCache.spendCoin]
  split
  · next v' eq =>
    rw [eq] at hf
    exact hf
  · next e v' eq =>
    rw [eq] at hf hs
    have found := hs e rfl
    simp only
    split_ifs with fresh
    · exact hf.drop found rfl
    · exact hf.replace (by rw [found, getD_some])
        (by simp [ValidState, Coin.empty, CTxOut.null, Coin.isSpent, CTxOut.isNull]) rfl rfl (by simp)

lemma uncache_booked (hb : Booked l) (o : COutPoint) : Booked (l.uncache o) := by
  rw [CacheLayer.uncache]
  split
  · exact hb
  · next e hf =>
    split_ifs with hd
    · exact hb
    · refine hb.drop hf ?_
      simp only [Bool.not_eq_true] at hd
      simp [eraseEntry, trySub, hd]

lemma batchWriteEntry_booked (hb : Booked l) {p : COutPoint × CCoinsCacheEntry}
  (ok : l.batchWriteEntry p = .ok l') : Booked l' := by
  simp only [batchWriteEntry] at ok
  split at ok
  · obtain rfl := Except.ok.inj ok
    exact hb
  split at ok
  · next hm =>
    split at ok
    · obtain rfl := Except.ok.inj ok
      exact hb
    · next hs =>
      obtain rfl := Except.ok.inj ok
      refine hb.insert hm ?_ rfl
      cases fresh : p.2.fresh <;> cases spent : p.2.coin.isSpent <;>
        simp [ValidState, fresh, spent] at hs ⊢
  · next us hf =>
    split at ok
    · cases ok
    split at ok
    · obtain rfl := Except.ok.inj ok
      exact hb.drop hf rfl
    · next hs =>
      obtain rfl := Except.ok.inj ok
      refine hb.replace (by rw [hf, getD_some]) ?_ rfl ?_ rfl
      · cases fresh : us.fresh <;> cases spent : p.2.coin.isSpent <;>
          simp [ValidState, fresh, spent] at hs ⊢
      · have covers := trySub_add (hb.entry_covers hf).1
        cases dirty : us.dirty <;> simp [dirty] at covers ⊢ <;> omega

lemma batchWrite_booked (hb : Booked l) {entries : List (COutPoint × CCoinsCacheEntry)}
  {hashBlock : Uint256} (ok : l.batchWrite entries hashBlock = .ok l') : Booked l' := by
  have written : ∀ {l l' : CacheLayer}, Booked l →
    entries.foldlM batchWriteEntry l = .ok l' → Booked l' := by
    clear ok
    induction entries with
    | nil =>
      intro l l' hb ok
      obtain rfl := Except.ok.inj ok
      exact hb
    | cons p rest ih =>
      intro l l' hb ok
      rw [foldlM_cons] at ok
      obtain ⟨middle, first, hl⟩ := Outcome.bind_eq_ok.mp ok
      exact ih (batchWriteEntry_booked hb first) hl
  rw [batchWrite] at ok
  obtain ⟨middle, all, rfl⟩ := Outcome.map_eq_ok.mp ok
  have wrote := written hb all
  exact ⟨wrote.states, ⟨wrote.linked.mem_iff, wrote.linked.nodup⟩, wrote.dirtyCount, wrote.usage⟩

end

section
variable {l l' : CacheLayer} {o : COutPoint} {e : CCoinsCacheEntry}

lemma ValidState.isFlagged_iff (hv : ValidState e) : e.isFlagged = true ↔ e.dirty = true := by
  rw [CCoinsCacheEntry.isFlagged, Bool.or_eq_true]
  cases dirty : e.dirty <;> cases fresh : e.fresh <;> simp [ValidState, dirty, fresh] at hv ⊢

lemma Booked.cursor_dirty (hb : Booked l) : ∀ p ∈ l.cursor, p.2.dirty = true := by
  rintro ⟨o, e⟩ hm
  obtain ⟨hf, hfl⟩ := (mem_cursor hb.linked o e).mp hm
  exact (hb.states o e hf).isFlagged_iff.mp hfl

lemma Booked.dirtyCount_eq_length (hb : Booked l) : l.dirtyCount = l.cursor.length := by
  have keysNodup : (l.cacheCoins.entries.map Sigma.fst).Nodup := l.cacheCoins.nodupKeys
  have unique : ((l.cacheCoins.entries.filter fun s => s.2.dirty).map Sigma.fst).Nodup :=
    keysNodup.sublist (filter_sublist.map _)
  have same : ((l.cacheCoins.entries.filter fun s => s.2.dirty).map Sigma.fst).Perm l.flagged := by
    refine (perm_ext_iff_of_nodup unique hb.linked.nodup).mpr fun o => ?_
    rw [hb.linked.mem_iff, Option.any_eq_true]
    constructor
    · intro hm
      obtain ⟨⟨o', e⟩, hk, rfl⟩ := mem_map.mp hm
      obtain ⟨stored, dirty⟩ := mem_filter.mp hk
      have found := AList.mem_lookup_iff.mpr stored
      exact ⟨e, found, (hb.states o' e found).isFlagged_iff.mpr dirty⟩
    · rintro ⟨e, found, hf⟩
      have stored : (⟨o, e⟩ : Sigma fun _ : COutPoint => CCoinsCacheEntry) ∈ l.cacheCoins.entries :=
        AList.mem_lookup_iff.mp found
      have dirty := (hb.states o e found).isFlagged_iff.mp hf
      exact mem_map.mpr ⟨⟨o, e⟩, mem_filter.mpr ⟨stored, dirty⟩, rfl⟩
  have keys := congrArg length (cursor_keys hb.linked)
  rw [length_map] at keys
  rw [hb.dirtyCount, countP_eq_length_filter, keys, ← same.length_eq, length_map]

lemma foldl_trySub {entries : List (COutPoint × CCoinsCacheEntry)}
  (hd : ∀ p ∈ entries, p.2.dirty = true) (more : ℕ) :
  entries.foldl (fun n p => trySub n p.2.dirty.toNat) (entries.length + more) = more ∧
    ∀ s ∈ cursorSubs (entries.length + more) entries, s.2 ≤ s.1 := by
  induction entries with
  | nil => simp [cursorSubs]
  | cons p rest ih =>
    have one : trySub ((p :: rest).length + more) p.2.dirty.toNat = rest.length + more := by
      rw [hd p (.head _), Bool.toNat_true, trySub, length_cons]
      split_ifs <;> omega
    obtain ⟨ends, hf⟩ := ih fun q hm => hd q (.tail _ hm)
    refine ⟨by rwa [foldl_cons, one], ?_⟩
    rw [cursorSubs, one]
    refine forall_mem_cons.mpr ⟨?_, hf⟩
    rw [hd p (.head _), Bool.toNat_true, length_cons]
    omega

section
variable (hb : Booked l)
include hb

lemma Booked.wiped : Booked l.wiped := by
  have ends := (foldl_trySub hb.cursor_dirty 0).1
  rw [add_zero, ← hb.dirtyCount_eq_length] at ends
  refine ⟨fun o e hf => ?_, ⟨fun o => ?_, nodup_nil⟩, ends, rfl⟩
  · cases hf
  · simp [CacheLayer.wiped, entry]

lemma Booked.cursorSubs_fit : ∀ s ∈ cursorSubs l.dirtyCount l.cursor, s.2 ≤ s.1 := by
  have fits := (foldl_trySub hb.cursor_dirty 0).2
  rwa [add_zero, ← hb.dirtyCount_eq_length] at fits

/-- One round of a cursor that keeps the map. -/
lemma Booked.nextAndMaybeErase (hf : l.entry o = some e)
  (cleared : e.coin.isSpent = true → dynamicMemoryUsage e.coin = 0) :
  Booked (l.nextAndMaybeErase (o, e)) := by
  have back := trySub_add (hb.entry_covers hf).1
  rw [CacheLayer.nextAndMaybeErase]
  split_ifs with spent
  · refine hb.erase rfl rfl ?_ ?_
    · rw [charge_of_entry dirtyOf hf]
      exact back
    · rw [charge_of_entry usageOf hf, usageOf, cleared spent]
      rfl
  have unspent : e.coin.isSpent = false := by simpa using spent
  refine hb.put (by simp [ValidState, CCoinsCacheEntry.setClean, unspent]) rfl rfl ?_ ?_
  · rw [charge_of_entry dirtyOf hf]
    exact back
  · rw [charge_of_entry usageOf hf]
    rfl

lemma Booked.foldl_nextAndMaybeErase (cleared : SpentAreCleared l) :
  Booked (l.cursor.foldl CacheLayer.nextAndMaybeErase l) := by
  generalize hl : l.flagged = keys
  induction keys generalizing l with
  | nil =>
    have nothing : l.cursor = [] := by simp [cursor, hl]
    rwa [nothing]
  | cons o rest ih =>
    obtain ⟨e, hf, -⟩ := (any_eq_true _ _).mp ((hb.linked.mem_iff o).mp (by simp [hl]))
    obtain ⟨-, list', -, -⟩ := nextAndMaybeErase_head hb.linked hl hf
    have walk := cursor_eq_cons hb.linked hl hf
    have now := cleared (o, e) (by simp [walk])
    have later : SpentAreCleared (l.nextAndMaybeErase (o, e)) := by
      intro p hm
      exact cleared p (by simp [walk, hm])
    rw [walk, foldl_cons]
    exact ih (hb.nextAndMaybeErase hf now) later list'

end

lemma booked_new (isOverlay : Bool) : Booked (CacheLayer.new isOverlay) := by
  refine ⟨fun o e hf => ?_, ⟨fun o => ?_, nodup_nil⟩, rfl, rfl⟩
  · cases hf
  · simp [CacheLayer.new, entry]

end

variable {v v' : CCoinsViewCache} {l : CacheLayer}

lemma toOption_eq_some {ε α : Type} {x : Except ε α} {a : α} (some : x.toOption = some a) :
  x = .ok a := by
  cases x with
  | error e => cases some
  | ok b => exact congrArg _ (Option.some.inj some)

lemma step_booked (hb : Booked v.layer) {event : Event} (ok : step v event = some v') :
  Booked v'.layer := by
  cases event with
  | fetchCoin o =>
    obtain rfl := some.inj ok
    exact (fetchCoin_booked hb o).1
  | addCoin o coin possibleOverwrite =>
    obtain ⟨l, added, rfl⟩ := Outcome.map_eq_ok.mp (toOption_eq_some ok)
    exact addCoin_booked hb added
  | spendCoin o =>
    obtain rfl := some.inj ok
    exact spendCoin_booked hb o
  | uncache o =>
    obtain rfl := some.inj ok
    exact uncache_booked hb o
  | emplaceCoinInternalDANGER o coin =>
    obtain rfl := some.inj ok
    exact emplace_booked hb o coin
  | flush =>
    obtain ⟨base, -, rfl⟩ := Outcome.map_eq_ok.mp (toOption_eq_some ok)
    exact hb.wiped
  | sync =>
    rw [step] at ok
    split_ifs at ok with cleared
    obtain ⟨base, -, hf⟩ := Outcome.bind_eq_ok.mp (toOption_eq_some ok)
    dsimp only at hf
    split_ifs at hf
    obtain rfl := Except.ok.inj hf
    exact hb.foldl_nextAndMaybeErase cleared
  | reset =>
    obtain rfl := some.inj ok
    exact booked_new v.layer.isOverlay
  | batchWrite entries hashBlock =>
    obtain ⟨l, written, rfl⟩ := map_eq_some_iff.mp ok
    exact batchWrite_booked hb (toOption_eq_some written)
  | baseChanged base =>
    obtain rfl := some.inj ok
    exact hb

lemma run_booked (hb : Booked v.layer) {events : List Event} (ran : run v events = some v') :
  Booked v'.layer := by
  induction events generalizing v with
  | nil =>
    obtain rfl := some.inj ran
    exact hb
  | cons event rest ih =>
    rw [run, foldlM_cons] at ran
    obtain ⟨middle, first, hl⟩ := bind_eq_some_iff.mp ran
    exact ih (step_booked hb first) hl

lemma batchWriteEntrySubs_fit (hb : Booked l)
  (p : COutPoint × CCoinsCacheEntry) : ∀ s ∈ batchWriteEntrySubs l p, s.2 ≤ s.1 := by
  rw [batchWriteEntrySubs]
  split
  · exact forall_mem_nil _
  split
  · exact forall_mem_nil _
  · next us hf =>
    split_ifs
    · exact forall_mem_nil _
    · exact hb.entrySubs_fit hf
    · exact forall_mem_singleton.mpr (hb.entry_covers hf).2

lemma batchWriteSubs_fit (hb : Booked l) (entries : List (COutPoint × CCoinsCacheEntry)) :
  ∀ s ∈ batchWriteSubs l entries, s.2 ≤ s.1 := by
  induction entries generalizing l with
  | nil => exact forall_mem_nil _
  | cons p rest ih =>
    rw [batchWriteSubs]
    refine forall_mem_append.mpr ⟨batchWriteEntrySubs_fit hb p, ?_⟩
    split
    · next l' ok => exact ih (batchWriteEntry_booked hb ok)
    · exact forall_mem_nil _

lemma trySubs_fit (hb : Booked v.layer) (event : Event) : ∀ s ∈ trySubs v event, s.2 ≤ s.1 := by
  cases event with
  | addCoin o coin possibleOverwrite =>
    rw [trySubs]
    split
    · exact forall_mem_nil _
    · next old hf =>
      split_ifs
      · exact forall_mem_nil _
      · exact hb.entrySubs_fit hf
  | spendCoin o =>
    obtain ⟨hfe, hs⟩ := fetchCoin_booked hb o
    rw [trySubs]
    split
    · exact forall_mem_nil _
    · next e v' eq =>
      rw [eq] at hfe hs
      exact hfe.entrySubs_fit (hs e rfl)
  | uncache o =>
    rw [trySubs]
    split
    · exact forall_mem_nil _
    · next e hf =>
      split_ifs
      · exact forall_mem_nil _
      · exact forall_mem_singleton.mpr (hb.entry_covers hf).2
  | flush | sync => exact hb.cursorSubs_fit
  | batchWrite entries hashBlock => exact batchWriteSubs_fit hb entries
  | fetchCoin | emplaceCoinInternalDANGER | reset | baseChanged => exact forall_mem_nil _

/-- Whatever calls a cache has seen, its flags, its linked list and its counters are right, and no
`TrySub` of the next call takes more than there is. -/
theorem cache_bookkeeping (isOverlay : Bool) (base : CoinsView) (events : List Event)
  (v : CCoinsViewCache) (ran : run ⟨CacheLayer.new isOverlay, base⟩ events = some v) :
  Booked v.layer ∧ ∀ event, ∀ s ∈ trySubs v event, s.2 ≤ s.1 := by
  have booked := run_booked (booked_new isOverlay) ran
  exact ⟨booked, trySubs_fit booked⟩

/-- A coin is added and spent, a second one is loaded, and a child spends it and adds a third, which
is spent after a sync. -/
def mixedEvents : List Event :=
  [.addCoin ⟨1, 0⟩ ⟨⟨50, List.replicate 40 1⟩, false, 3⟩ false, .spendCoin ⟨1, 0⟩,
    .emplaceCoinInternalDANGER ⟨2, 0⟩ ⟨⟨20, List.replicate 30 1⟩, true, 1⟩,
    .batchWrite [(⟨2, 0⟩, ⟨Coin.empty, true, false⟩), (⟨3, 1⟩, ⟨⟨⟨7, [1]⟩, false, 4⟩, true, true⟩)] 9,
    .sync, .spendCoin ⟨3, 1⟩]

theorem cache_bookkeeping_mixedEvents :
  ∃ v, run ⟨CacheLayer.new false, .bottom .new⟩ mixedEvents = some v ∧ v.layer.dirtyCount = 1 ∧
    Booked v.layer ∧ ∀ event, ∀ s ∈ trySubs v event, s.2 ≤ s.1 := by
  obtain ⟨v, ran⟩ : ∃ v, run ⟨CacheLayer.new false, .bottom .new⟩ mixedEvents = some v := ⟨_, rfl⟩
  have counted : (run ⟨CacheLayer.new false, .bottom .new⟩ mixedEvents).map (·.layer.dirtyCount) =
    some 1 := by decide +kernel
  rw [ran] at counted
  exact ⟨v, ran, Option.some.inj counted, cache_bookkeeping false (.bottom .new) mixedEvents v ran⟩

end CoinsBookkeeping
