import Andaluzcoin.CoinsInvariant

/-!
# Writing a cache into the view below

`BatchWrite`, `Flush` and `Sync`. Writing the flagged entries of a cache whose
promises hold never meets a misapplied FRESH flag, keeps the promises of the
cache below, and makes the view below show what the cache showed.
-/

namespace CoinsFlush

open Transaction Coins CoinsInvariant List Function Option CacheLayer

variable {p : COutPoint × CCoinsCacheEntry} {v : CoinsView}

/-- The view that dirty entries written one by one give. -/
abbrev written (below : COutPoint → Option Coin)
  (entries : List (COutPoint × CCoinsCacheEntry)) : COutPoint → Option Coin :=
  LayeredMap.writeAll CCoinsCacheEntry.unspent below entries

/-- One entry of the cursor: dirty, and with promises that hold over the view written to. -/
def Writable (strict : Bool) (below : COutPoint → Option Coin)
  (p : COutPoint × CCoinsCacheEntry) : Prop :=
  p.2.dirty = true ∧ EntryValid strict (below p.1) p.2

/-- The entry that a dirty one leaves where it is written. -/
def merged (us : Option CCoinsCacheEntry) (e : CCoinsCacheEntry) : Option CCoinsCacheEntry :=
  match us with
  | none => some ⟨e.coin, true, e.fresh⟩
  | some us => if us.fresh && e.coin.isSpent then none else some ⟨e.coin, true, us.fresh⟩

section
variable {l : CacheLayer} {base : CoinsView} {o : COutPoint} {e : CCoinsCacheEntry} {strict : Bool}

/-- A dirty entry is written, unless it is FRESH and an unspent coin is there. -/
lemma batchWriteEntry_cases (hd : e.dirty = true)
  (hev : EntryValid strict ((CoinsView.cache l base).peekCoin o) e) :
  (∃ us, l.entry o = some us ∧ (e.fresh && !us.coin.isSpent) = true ∧
    l.batchWriteEntry (o, e) = .error .freshMisapplied) ∨
  ∃ l', l.batchWriteEntry (o, e) = .ok l' ∧ Replaced l l' o (merged (l.entry o) e) := by
  rw [batchWriteEntry, if_neg (by simp [hd])]
  dsimp only
  cases l.entry o with
  | none =>
    have keep : ¬ (e.fresh && e.coin.isSpent) = true := by
      rw [Bool.and_eq_true]
      rintro ⟨fresh, spent⟩
      simp [(hev.spent spent).2.2] at fresh
    right
    refine ⟨_, if_neg keep, ?_⟩
    exact replaced_put rfl rfl
  | some us =>
    dsimp only [merged]
    by_cases misapplied : (e.fresh && !us.coin.isSpent) = true
    · exact .inl ⟨us, rfl, misapplied, if_pos misapplied⟩
    rw [if_neg misapplied]
    right
    by_cases gone : (us.fresh && e.coin.isSpent) = true
    · rw [if_pos gone, if_pos gone]
      refine ⟨_, rfl, ?_⟩
      exact replaced_erase rfl rfl
    · rw [if_neg gone, if_neg gone]
      refine ⟨_, rfl, ?_⟩
      exact replaced_put rfl rfl

lemma merged_valid (hv : Valid strict (.cache l base))
  (hev : EntryValid strict ((CoinsView.cache l base).peekCoin o) e) :
  ∀ e' ∈ merged (l.entry o) e, EntryValid strict (base.peekCoin o) e' := by
  cases h : l.entry o with
  | none =>
    rw [peekCoin_of_no_entry l base o h] at hev
    rintro _ ⟨⟩
    exact ⟨fun spent => ⟨(hev.spent spent).1, rfl, (hev.spent spent).2.2⟩, by simp, fun _ => rfl,
      hev.absent⟩
  | some us =>
    dsimp only [merged]
    split_ifs with gone
    · simp
    rintro _ ⟨⟩
    refine ⟨fun spent => ⟨(hev.spent spent).1, rfl, ?_⟩, by simp, fun _ => rfl,
      (hv.1.entries o us h).absent⟩
    have spent : e.coin.isSpent = true := spent
    simpa [spent] using gone

end

lemma layer_batchWriteEntry {l : CacheLayer} {base : CoinsView} (hv : Valid true (.cache l base))
  (hw : Writable true (CoinsView.cache l base).peekCoin p) :
  ∃ l', l.batchWriteEntry p = .ok l' ∧ Valid true (.cache l' base) ∧
    (CoinsView.cache l' base).peekCoin
      = update (CoinsView.cache l base).peekCoin p.1 p.2.unspent := by
  obtain ⟨o, e⟩ := p
  obtain ⟨dirty, entryValid⟩ := hw
  rcases batchWriteEntry_cases dirty entryValid with ⟨us, h, misapplied, -⟩ | ⟨l', ok, replaced⟩
  · obtain ⟨fresh, unspent⟩ := (Bool.and_eq_true _ _).mp misapplied
    have absent := entryValid.absent rfl fresh
    rw [Bool.not_eq_true'] at unspent
    simp [peekCoin_of_entry l base o h, unspent_of_not_isSpent unspent] at absent
  have shows := Replaced.shows (v := ⟨l, base⟩) replaced hv (merged_valid hv entryValid)
  refine ⟨l', ok, shows.valid, shows.peekCoin.trans (congrArg (update _ o) ?_)⟩
  cases h : l.entry o with
  | none => rfl
  | some us =>
    dsimp only [merged]
    split_ifs with gone
    · obtain ⟨fresh, spent⟩ := (Bool.and_eq_true _ _).mp gone
      rw [unspent_of_isSpent spent]
      exact (hv.1.entries o us h).absent rfl fresh
    · rfl

lemma bottom_batchWriteEntry (b : CoinsViewBottom) (hd : p.2.dirty = true) :
  (b.batchWriteEntry p).getCoin = update b.getCoin p.1 p.2.unspent := by
  funext o
  unfold CoinsViewBottom.batchWriteEntry
  rw [if_pos hd]
  split
  · next unspent =>
    by_cases hs : o = p.1
    · subst hs
      simp [CoinsViewBottom.getCoin, CoinsViewBottom.insert, unspent_of_not_isSpent unspent]
    · simp [CoinsViewBottom.getCoin, CoinsViewBottom.insert, hs, AList.lookup_insert_ne hs]
  · next spent =>
    by_cases hs : o = p.1
    · subst hs
      simp [CoinsViewBottom.getCoin, CoinsViewBottom.erase,
        unspent_of_isSpent (Bool.not_eq_false _ ▸ spent)]
    · simp [CoinsViewBottom.getCoin, CoinsViewBottom.erase, hs, AList.lookup_erase_ne hs]

/-- One iteration of `BatchWrite` on whatever view is below. -/
def writeEntry (v : CoinsView) (p : COutPoint × CCoinsCacheEntry) : Except CoinsError CoinsView :=
  match v with
  | .bottom b => .ok (.bottom (b.batchWriteEntry p))
  | .cache l base => (l.batchWriteEntry p).map fun l => .cache l base

/-- `SetBestBlock` at the end of `BatchWrite`. -/
def setHash (v : CoinsView) (hashBlock : Uint256) : CoinsView :=
  match v with
  | .bottom b => .bottom { b with bestBlock := hashBlock }
  | .cache l base => .cache { l with hashBlock } base

lemma setHash_valid {strict : Bool} (hv : Valid strict v)
  (hashBlock : Uint256) : Valid strict (setHash v hashBlock) := by
  cases v with
  | bottom b => trivial
  | cache l base => exact ⟨hv.1.congr rfl rfl, hv.2⟩

lemma setHash_views (v : CoinsView) (hashBlock : Uint256) :
  views (setHash v hashBlock) = views v := by
  cases v with
  | bottom b => rfl
  | cache l base =>
    simp only [setHash, views, List.cons.injEq, and_true]
    exact peekCoin_congr rfl base

lemma setHash_cacheFlags (v : CoinsView) (hashBlock : Uint256) :
  cacheFlags (setHash v hashBlock) = cacheFlags v := by
  cases v with
  | bottom b => rfl
  | cache l base => rfl

lemma batchWrite_eq (v : CoinsView) (entries : List (COutPoint × CCoinsCacheEntry))
  (hashBlock : Uint256) : v.batchWrite entries hashBlock
    = (entries.foldlM writeEntry v).map fun v => setHash v hashBlock := by
  cases v with
  | bottom b =>
    have loop : entries.foldlM writeEntry (.bottom b)
      = .ok (.bottom (entries.foldl CoinsViewBottom.batchWriteEntry b)) := by
      induction entries generalizing b with
      | nil => rfl
      | cons p rest ih => exact ih (b.batchWriteEntry p)
    rw [loop]
    rfl
  | cache l base =>
    have loop : entries.foldlM writeEntry (.cache l base)
      = (entries.foldlM batchWriteEntry l).map fun l => .cache l base := by
      induction entries generalizing l with
      | nil => rfl
      | cons p rest ih =>
        simp only [foldlM_cons, writeEntry]
        cases h : l.batchWriteEntry p with
        | error e => rfl
        | ok l' => exact ih l'
    rw [loop]
    simp only [CoinsView.batchWrite, batchWrite]
    cases entries.foldlM batchWriteEntry l <;> rfl

lemma writeEntry_spec (hv : Valid true v) (hw : Writable true v.peekCoin p) :
  ∃ v', writeEntry v p = .ok v' ∧ Valid true v' ∧
    views v' = update v.peekCoin p.1 p.2.unspent :: (views v).tail := by
  cases v with
  | bottom b =>
    refine ⟨_, rfl, trivial, ?_⟩
    simp only [views, tail_cons, List.cons.injEq, and_true]
    exact bottom_batchWriteEntry b hw.1
  | cache l base =>
    obtain ⟨l', ok, hv', peek⟩ := layer_batchWriteEntry hv hw
    refine ⟨.cache l' base, ?_, hv', ?_⟩
    · simp [writeEntry, ok, Except.map]
    · simp only [views, tail_cons, List.cons.injEq, and_true]
      exact peek

lemma writable_update {below : COutPoint → Option Coin} {o : COutPoint} {x : Option Coin}
  (ne : p.1 ≠ o) (hw : Writable true below p) : Writable true (update below o x) p := by
  refine ⟨hw.1, ?_⟩
  rw [update_of_ne ne]
  exact hw.2

lemma foldlM_writeEntry (hv : Valid true v) (entries : List (COutPoint × CCoinsCacheEntry))
  (nodup : (entries.map Prod.fst).Nodup) (hw : ∀ p ∈ entries, Writable true v.peekCoin p) :
  ∃ v', entries.foldlM writeEntry v = .ok v' ∧ Valid true v' ∧
    views v' = written v.peekCoin entries :: (views v).tail := by
  induction entries generalizing v with
  | nil => exact ⟨v, rfl, hv, views_eq_cons v⟩
  | cons p rest ih =>
    simp only [map_cons, nodup_cons] at nodup
    obtain ⟨v₁, ok₁, valid₁, views₁⟩ := writeEntry_spec hv (hw p (.head _))
    have peek₁ : v₁.peekCoin = update v.peekCoin p.1 p.2.unspent := by
      rw [views_eq_cons v₁] at views₁
      exact (List.cons.inj views₁).1
    have others : ∀ q ∈ rest, Writable true v₁.peekCoin q := by
      intro q hm
      have ne : q.1 ≠ p.1 := by
        intro hs
        exact nodup.1 (hs ▸ mem_map_of_mem hm)
      rw [peek₁]
      exact writable_update ne (hw q (.tail _ hm))
    obtain ⟨v₂, ok₂, valid₂, views₂⟩ := ih valid₁ nodup.2 others
    refine ⟨v₂, ?_, valid₂, ?_⟩
    · rw [foldlM_cons, ok₁]
      exact ok₂
    · rw [views₂, peek₁, views₁]
      rfl

/-- `BatchWrite` of entries that keep their promises succeeds and writes each of them. -/
lemma batchWrite_spec (hv : Valid true v)
  {entries : List (COutPoint × CCoinsCacheEntry)} (nodup : (entries.map Prod.fst).Nodup)
  (hw : ∀ p ∈ entries, Writable true v.peekCoin p) (hashBlock : Uint256) :
  ∃ v', v.batchWrite entries hashBlock = .ok v' ∧ Valid true v' ∧
    views v' = written v.peekCoin entries :: (views v).tail := by
  obtain ⟨v', ok, hv', hs⟩ := foldlM_writeEntry hv entries nodup hw
  refine ⟨setHash v' hashBlock, ?_, setHash_valid hv' hashBlock, ?_⟩
  · rw [batchWrite_eq, ok]
    rfl
  · rw [setHash_views, hs]

section
variable {l : CacheLayer} {strict : Bool}

lemma mem_cursor (hl : Linked l) (o : COutPoint) (e : CCoinsCacheEntry) :
  (o, e) ∈ l.cursor ↔ l.entry o = some e ∧ e.isFlagged = true := by
  simp only [cursor, mem_filterMap, map_eq_some_iff, Prod.mk.injEq]
  constructor
  · rintro ⟨o', hm, e', hf, rfl, rfl⟩
    have flagged := (hl.mem_iff o').mp hm
    rw [hf] at flagged
    exact ⟨hf, flagged⟩
  · rintro ⟨hf, flagged⟩
    refine ⟨o, (hl.mem_iff o).mpr ?_, e, hf, rfl, rfl⟩
    rw [hf]
    exact flagged

lemma cursor_keys (hl : Linked l) : l.cursor.map Prod.fst = l.flagged := by
  have present : ∀ o ∈ l.flagged, ∃ e, l.entry o = some e := by
    intro o hm
    obtain ⟨e, hf, -⟩ := (any_eq_true _ _).mp ((hl.mem_iff o).mp hm)
    exact ⟨e, hf⟩
  unfold cursor
  generalize l.flagged = keys at present
  induction keys with
  | nil => rfl
  | cons o rest ih =>
    obtain ⟨e, hf⟩ := present o (.head _)
    simp only [filterMap_cons, hf, map_some, map_cons]
    rw [ih fun o' hm => present o' (.tail _ hm)]

lemma cursor_keys_nodup (hl : Linked l) : (l.cursor.map Prod.fst).Nodup := by
  rw [cursor_keys hl]
  exact hl.nodup

lemma isFlagged_iff_dirty {below : Option Coin} {e : CCoinsCacheEntry}
  (hv : EntryValid strict below e) : e.isFlagged = true ↔ e.dirty = true := by
  unfold CCoinsCacheEntry.isFlagged
  rw [Bool.or_eq_true]
  constructor
  · rintro (hd | fresh)
    · exact hd
    · exact hv.fresh fresh
  · exact Or.inl

lemma clean_of_unflagged {below : Option Coin} {e : CCoinsCacheEntry}
  (hv : EntryValid strict below e) (hu : e.isFlagged = false) : e.dirty = false := by
  rw [← Bool.not_eq_true, ← isFlagged_iff_dirty hv, hu]
  simp

lemma cursor_writable {below : COutPoint → Option Coin}
  (hv : LayerValid strict below l) : ∀ p ∈ l.cursor, Writable strict below p := by
  rintro ⟨o, e⟩ hm
  obtain ⟨hf, hfl⟩ := (mem_cursor hv.linked o e).mp hm
  have entryValid := hv.entries o e hf
  exact ⟨(isFlagged_iff_dirty entryValid).mp hfl, entryValid⟩

/-- The flagged entries are all that sets the view of a cache apart from the one below. -/
lemma written_cursor {base : CoinsView} (hv : LayerValid true base.peekCoin l) :
  written base.peekCoin l.cursor = (CoinsView.cache l base).peekCoin := by
  funext o
  cases h : l.entry o with
  | none =>
    rw [peekCoin_of_no_entry l base o h]
    apply LayeredMap.writeAll_of_notMem
    rw [cursor_keys hv.linked, hv.linked.mem_iff, h]
    simp
  | some e =>
    have entryValid := hv.entries o e h
    rw [peekCoin_of_entry l base o h]
    cases hf : e.isFlagged with
    | true =>
      exact LayeredMap.writeAll_of_mem _ _ _ (cursor_keys_nodup hv.linked)
        ((mem_cursor hv.linked o e).mpr ⟨h, hf⟩)
    | false =>
      have below := entryValid.clean (clean_of_unflagged entryValid hf)
      rw [unspent_of_not_isSpent (peekCoin_unspent base o below), ← below]
      apply LayeredMap.writeAll_of_notMem
      rw [cursor_keys hv.linked, hv.linked.mem_iff, h]
      simp [hf]

end

lemma batchWrite_cursor {v : CCoinsViewCache} (hv : Valid true v.toView) :
  ∃ base, v.base.batchWrite v.layer.cursor v.layer.hashBlock = .ok base ∧ Valid true base ∧
    views base = v.peekCoin :: (views v.base).tail := by
  have layerValid := hv.1
  obtain ⟨base, ok, hbv, hs⟩ := batchWrite_spec hv.2
    (cursor_keys_nodup layerValid.linked) (cursor_writable layerValid) v.layer.hashBlock
  rw [written_cursor layerValid] at hs
  exact ⟨base, ok, hbv, hs⟩

/-- After writing down, the two upper depths show what the top showed. -/
structure WritesDown (v v' : CCoinsViewCache) : Prop where
  valid : Valid true v'.toView
  views : views v'.toView = v.peekCoin :: v.peekCoin :: (views v.base).tail

lemma flush_writesDown {v : CCoinsViewCache} (hv : Valid true v.toView) :
  ∃ v', v.flush = .ok v' ∧ WritesDown v v' := by
  obtain ⟨base, ok, hbv, hs⟩ := batchWrite_cursor hv
  have top : (CoinsView.cache v.layer.wiped base).peekCoin = base.peekCoin := by
    funext o
    exact peekCoin_of_no_entry _ _ _ rfl
  have atBase : base.peekCoin = v.peekCoin := by
    rw [views_eq_cons base] at hs
    exact (cons.inj hs).1
  refine ⟨⟨v.layer.wiped, base⟩, by simp [CCoinsViewCache.flush, ok, Except.map], ?_, ?_⟩
  · exact ⟨layerValid_empty rfl rfl, hbv⟩
  · simp only [CCoinsViewCache.toView, CoinsInvariant.views, top, atBase, hs]

variable {e : CCoinsCacheEntry} {o : COutPoint} {l : CacheLayer} {rest : List COutPoint}

/-- What `NextAndMaybeErase` makes of an entry: spent ones go, the others lose their flags. -/
def synced (e : CCoinsCacheEntry) : Option CCoinsCacheEntry :=
  if e.isFlagged then if e.coin.isSpent then none else some e.setClean else some e

@[simp] lemma isFlagged_setClean (e : CCoinsCacheEntry) : e.setClean.isFlagged = false := rfl

/-- What is left of a valid entry is its coin, unspent and not flagged. -/
lemma synced_left {strict : Bool} {base : CoinsView} {e₀ : CCoinsCacheEntry}
  (hev : EntryValid strict (base.peekCoin o) e₀) (hk : synced e₀ = some e) :
  e.isFlagged = false ∧ e.coin = e₀.coin ∧ e₀.coin.isSpent = false := by
  cases flagged : e₀.isFlagged with
  | true =>
    cases spent : e₀.coin.isSpent with
    | true => simp [synced, flagged, spent] at hk
    | false =>
      obtain rfl : e₀.setClean = e := by simpa [synced, flagged, spent] using hk
      exact ⟨rfl, rfl, rfl⟩
  | false =>
    obtain rfl : e₀ = e := by simpa [synced, flagged] using hk
    have below := hev.clean (clean_of_unflagged hev flagged)
    exact ⟨flagged, rfl, peekCoin_unspent base o below⟩

lemma synced_synced (e : CCoinsCacheEntry) : (synced e).bind synced = synced e := by
  cases flagged : e.isFlagged with
  | false => simp [synced, flagged]
  | true =>
    cases spent : e.coin.isSpent with
    | true => simp [synced, flagged, spent]
    | false => simp [synced, flagged, spent]

section
variable (hl : Linked l) (list : l.flagged = o :: rest) (hf : l.entry o = some e)
include hl list hf

lemma nextAndMaybeErase_head : let l' := l.nextAndMaybeErase (o, e)
  Linked l' ∧ l'.flagged = rest ∧ l'.entry o = synced e ∧
    ∀ o', o' ≠ o → l'.entry o' = l.entry o' := by
  have flagged : e.isFlagged = true := by
    have := (hl.mem_iff o).mp (by simp [list])
    simpa [hf] using this
  set counted : CacheLayer := { l with dirtyCount := trySub l.dirtyCount e.dirty.toNat }
    with hcounted
  have countedLinked : Linked counted := ⟨hl.mem_iff, hl.nodup⟩
  have countedFound : counted.entry o = some e := hf
  have unlinked : counted.relink o false = rest := by
    have listed : counted.flagged = o :: rest := list
    simp [relink, countedFound, flagged, listed]
  obtain ⟨step, replaced⟩ : (l.nextAndMaybeErase (o, e)).flagged = counted.relink o false ∧
    Replaced counted (l.nextAndMaybeErase (o, e)) o (synced e) := by
    rw [nextAndMaybeErase, synced, if_pos flagged]
    split_ifs
    · exact ⟨rfl, replaced_erase rfl rfl⟩
    · exact ⟨rfl, replaced_put rfl rfl⟩
  refine ⟨replaced.linked countedLinked, step.trans unlinked, ?_, fun o' ne => ?_⟩
  · rw [replaced.entry, update_self]
  · rw [replaced.entry, update_of_ne ne]
    rfl

/-- The rest of a cursor's walk is the walk that the next round would start. -/
lemma cursor_eq_cons : l.cursor = (o, e) :: (l.nextAndMaybeErase (o, e)).cursor := by
  obtain ⟨-, list', -, ho⟩ := nextAndMaybeErase_head hl list hf
  have notLater : o ∉ rest := by
    have := hl.nodup
    rw [list, nodup_cons] at this
    exact this.1
  simp only [cursor, list, filterMap_cons, hf, map_some, list']
  congr 1
  apply filterMap_congr
  intro o' hm
  rw [ho o' (fun hs => notLater (hs ▸ hm))]

end

/-- The walk of a cursor that keeps the map: the list ends up empty. -/
lemma foldl_nextAndMaybeErase (hl : Linked l) : (l.cursor.foldl nextAndMaybeErase l).flagged = [] ∧
  ∀ o, (l.cursor.foldl nextAndMaybeErase l).entry o = (l.entry o).bind synced := by
  generalize hkeys : l.flagged = keys
  induction keys generalizing l with
  | nil =>
    have nothing : l.cursor = [] := by simp [cursor, hkeys]
    refine ⟨by simpa [nothing] using hkeys, fun o => ?_⟩
    rw [nothing, foldl_nil]
    cases h : l.entry o with
    | none => rfl
    | some e =>
      have unflagged : e.isFlagged = false := by
        have := hl.mem_iff o
        simpa [hkeys, h] using this
      simp [synced, unflagged]
  | cons o rest ih =>
    obtain ⟨e, hf, -⟩ := (any_eq_true _ _).mp ((hl.mem_iff o).mp (by simp [hkeys]))
    obtain ⟨hl', list', self, ho⟩ := nextAndMaybeErase_head hl hkeys hf
    obtain ⟨hd, entries⟩ := ih hl' list'
    rw [cursor_eq_cons hl hkeys hf, foldl_cons]
    refine ⟨hd, fun o' => ?_⟩
    rw [entries o']
    by_cases hs : o' = o
    · subst hs
      rw [self, hf]
      exact synced_synced e
    · rw [ho o' hs]

lemma sync_writesDown {v : CCoinsViewCache} (hv : Valid true v.toView) :
  ∃ v', v.sync = .ok v' ∧ WritesDown v v' := by
  obtain ⟨base, ok, hbv, hs⟩ := batchWrite_cursor hv
  have layerValid : LayerValid true v.base.peekCoin v.layer := hv.1
  obtain ⟨he, entries⟩ := foldl_nextAndMaybeErase layerValid.linked
  have atBase : base.peekCoin = v.peekCoin := by
    rw [views_eq_cons base] at hs
    exact (cons.inj hs).1
  set layer := v.layer.cursor.foldl nextAndMaybeErase v.layer
  -- What is left in the map is unspent and what the base now shows.
  have left : ∀ o e, layer.entry o = some e →
    e.isFlagged = false ∧ v.peekCoin o = some e.coin ∧ e.coin.isSpent = false := by
    intro o e hf
    rw [entries o] at hf
    obtain ⟨e₀, found₀, hk⟩ := bind_eq_some_iff.mp hf
    obtain ⟨hu, hsa, unspent⟩ := synced_left (layerValid.entries o e₀ found₀) hk
    have shown₀ : v.peekCoin o = e₀.unspent := peekCoin_of_entry _ _ _ found₀
    rw [shown₀, unspent_of_not_isSpent unspent, hsa]
    exact ⟨hu, rfl, unspent⟩
  have newValid : LayerValid true base.peekCoin layer := by
    refine ⟨fun o e hf => ?_, fun o => ?_, by simp [he]⟩
    · obtain ⟨hu, peek, unspent⟩ := left o e hf
      rw [CCoinsCacheEntry.isFlagged, Bool.or_eq_false_iff] at hu
      obtain ⟨coin, hd, fresh⟩ := e
      obtain ⟨rfl, rfl⟩ : hd = false ∧ fresh = false := hu
      rw [atBase]
      exact entryValid_fetched peek unspent
    · rw [he]
      cases hf : layer.entry o with
      | none => simp
      | some e => simp [(left o e hf).1]
  have top : (CoinsView.cache layer base).peekCoin = v.peekCoin := by
    funext o
    cases hf : layer.entry o with
    | none => rw [peekCoin_of_no_entry layer base o hf, atBase]
    | some e =>
      obtain ⟨-, peek, unspent⟩ := left o e hf
      rw [peekCoin_of_entry layer base o hf, unspent_of_not_isSpent unspent, peek]
  refine ⟨⟨layer, base⟩, ?_, ⟨newValid, hbv⟩, ?_⟩
  · simp only [CCoinsViewCache.sync, ok]
    show (if layer.flagged ≠ [] then _ else _) = _
    rw [if_neg (by simp [he])]
  · simp only [CCoinsViewCache.toView, CoinsInvariant.views, top, hs]

end CoinsFlush
