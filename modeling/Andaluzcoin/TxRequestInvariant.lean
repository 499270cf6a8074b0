import Andaluzcoin.TxRequest

/-!
# What a request tracker keeps

The container part: both orders hold the same announcements, no two of them of one peer and hash, and
the numbers of the peers are those of the announcements. The part about states: what the sanity check
asserts of the announcements of each hash. Every function of the tracker is described by what it does
to the collection of announcements, up to which of the ready candidates is the best one.
-/

namespace TxRequest

open OrderedIndex List Function

section
variable {H P : Type} [DecidableEq P] {l : List (Announcement H P)}

lemma recomputePeerInfo_perm {l' : List (Announcement H P)} (perm : l.Perm l') :
  recomputePeerInfo l = recomputePeerInfo l' := by
  funext peer
  have own := perm.filter fun ann => ann.peer = peer
  rw [recomputePeerInfo, recomputePeerInfo, own.length_eq, own.countP_eq, own.countP_eq]

lemma recomputePeerInfo_pos {peer : P} {info : PeerInfo}
  (eq : recomputePeerInfo l peer = some info) : 0 < info.total := by
  rw [recomputePeerInfo] at eq
  split_ifs at eq with none
  cases eq
  exact pos_of_ne_zero none

/-- The numbers of a peer with one more announcement. -/
def PeerInfo.count (state : State) (info : PeerInfo) : PeerInfo :=
  { info.add state with total := info.total + 1 }

lemma recomputePeerInfo_getD (l : List (Announcement H P)) (peer : P) :
  (recomputePeerInfo l peer).getD .new = let own := l.filter fun ann => ann.peer = peer
    ⟨own.length, own.countP (·.state = .completed), own.countP (·.state = .requested)⟩ := by
  rw [recomputePeerInfo]
  split_ifs with none
  · rw [length_eq_zero_iff.mp none]
    rfl
  · rfl

lemma recomputePeerInfo_cons (ann : Announcement H P) (l : List (Announcement H P)) :
  recomputePeerInfo (ann :: l) = update (recomputePeerInfo l) ann.peer
    (some (((recomputePeerInfo l ann.peer).getD .new).count ann.state)) := by
  funext peer
  by_cases own : peer = ann.peer
  · subst own
    rw [update_self, recomputePeerInfo_getD, recomputePeerInfo,
      filter_cons_of_pos (by simp), if_neg (by simp), countP_cons, countP_cons]
    simp [PeerInfo.count, PeerInfo.add]
  · rw [update_of_ne own, recomputePeerInfo, recomputePeerInfo,
      filter_cons_of_neg (by simpa using Ne.symm own)]

lemma PeerInfo.add_remove_count (state state' : State) (info : PeerInfo) :
  ((info.count state).remove state).add state' = info.count state' := by
  simp [PeerInfo.count, PeerInfo.add, PeerInfo.remove]

lemma PeerInfo.remove_count (state : State) (info : PeerInfo) :
  (info.count state).remove state = { info with total := info.total + 1 } := by
  simp [PeerInfo.count, PeerInfo.add, PeerInfo.remove]

end

section
variable {H P : Type} [LinearOrder H] [DecidableEq P]

/-- The announcements without their order. -/
def Tracker.anns (t : Tracker H P) : Multiset (Announcement H P) := t.index.byTxHash

/-- What addresses an announcement. -/
def Announcement.address (ann : Announcement H P) : P × H := (ann.peer, ann.txhash)

/-- Both orders hold, over the same announcements, and the numbers of the peers are right. -/
structure WellFormed (computer : PriorityComputer H P) (t : Tracker H P) : Prop where
  orderedByTxHash : Ordered (byTxHashView computer) t.index.byTxHash
  orderedByTime : Ordered byTimeView t.index.byTime
  same : t.index.byTime.Perm t.index.byTxHash
  unique : (t.anns.map Announcement.address).Nodup
  peerinfo : t.peerinfo = recomputePeerInfo t.index.byTxHash
  sequences : ∀ ann ∈ t.anns, ann.sequence < t.currentSequence
  received : (t.anns.map Announcement.sequence).Nodup

lemma isAt_iff {it ann : Announcement H P} : it.isAt ann = true ↔ ann.address = it.address := by
  simp [Announcement.isAt, Announcement.address]

variable {pc : PriorityComputer H P} {t : Tracker H P} {it : Announcement H P}
  {rest : Multiset (Announcement H P)}

lemma addresses_of_unique {l : List (Announcement H P)} {rest : List (Announcement H P)}
  (unique : (l.map Announcement.address).Nodup) (perm : l.Perm (it :: rest)) :
  Addresses it.isAt l it := by
  refine ⟨isAt_iff.mpr rfl, rest, perm, fun b hm => ?_⟩
  have nodup := (perm.map Announcement.address).nodup_iff.mp unique
  rw [map_cons, nodup_cons] at nodup
  by_contra at_
  rw [Bool.not_eq_false, isAt_iff] at at_
  exact nodup.1 (at_ ▸ mem_map_of_mem hm)

lemma WellFormed.addresses (wf : WellFormed pc t) {rest : List (Announcement H P)}
  (anns : t.anns = it ::ₘ rest) :
  (t.index.byTxHash.Perm (it :: rest) ∧ Addresses it.isAt t.index.byTxHash it) ∧
    t.index.byTime.Perm (it :: rest) ∧ Addresses it.isAt t.index.byTime it := by
  have perm := Multiset.coe_eq_coe.mp anns
  have unique : (t.index.byTxHash.map Announcement.address).Nodup := by
    have := wf.unique
    rwa [Tracker.anns, Multiset.map_coe, Multiset.coe_nodup] at this
  have permTime := wf.same.trans perm
  refine ⟨⟨perm, addresses_of_unique unique perm⟩, permTime, addresses_of_unique ?_ permTime⟩
  exact (wf.same.map Announcement.address).nodup_iff.mpr unique

omit [LinearOrder H] [DecidableEq P] in
lemma exists_list (M : Multiset (Announcement H P)) : ∃ l : List (Announcement H P), M = l :=
  ⟨M.toList, M.coe_toList.symm⟩

variable (wf : WellFormed pc t)
include wf

/-- A function of the tracker that puts another announcement in the place of one. -/
lemma WellFormed.modify (anns : t.anns = it ::ₘ rest)
  {f : Announcement H P → Announcement H P} (peer : (f it).peer = it.peer)
  (hg : (f it).gtxid = it.gtxid) (hs : (f it).sequence = it.sequence) :
  WellFormed pc (t.modify pc it f) ∧ (t.modify pc it f).anns = f it ::ₘ rest ∧
    (t.modify pc it f).currentSequence = t.currentSequence := by
  obtain ⟨rest, rfl⟩ := exists_list rest
  obtain ⟨⟨hph, atHash⟩, permTime, atTime⟩ := wf.addresses anns
  have newHash := modify_perm (byTxHashView pc) atHash f hph
  have newTime := modify_perm byTimeView atTime f permTime
  have address : (f it).address = it.address := by
    rw [Announcement.address, Announcement.address, peer, Announcement.txhash, hg]
    rfl
  have newAnns : (t.modify pc it f).anns = f it ::ₘ (rest : Multiset _) :=
    Multiset.coe_eq_coe.mpr newHash
  refine ⟨⟨modify_ordered wf.orderedByTxHash f, modify_ordered wf.orderedByTime f,
    newTime.trans newHash.symm, ?_, ?_, ?_, ?_⟩, newAnns, rfl⟩
  · have unique := wf.unique
    rw [anns, Multiset.map_cons] at unique
    rw [newAnns, Multiset.map_cons, address]
    exact unique
  · have old : t.peerinfo = recomputePeerInfo (it :: rest) :=
      wf.peerinfo.trans (recomputePeerInfo_perm hph)
    refine Eq.trans ?_ (recomputePeerInfo_perm newHash).symm
    change update t.peerinfo it.peer _ = _
    rw [recomputePeerInfo_cons (f it), peer, old, recomputePeerInfo_cons, update_self, update_idem,
      Option.map_some, PeerInfo.add_remove_count]
  · intro ann hm
    rw [newAnns, Multiset.mem_cons] at hm
    rcases hm with rfl | hm
    · rw [hs]
      exact wf.sequences it (anns ▸ Multiset.mem_cons_self it _)
    · exact wf.sequences ann (anns ▸ Multiset.mem_cons_of_mem hm)
  · have received := wf.received
    rw [anns, Multiset.map_cons] at received
    rw [newAnns, Multiset.map_cons, hs]
    exact received

lemma WellFormed.erase (anns : t.anns = it ::ₘ rest) :
  WellFormed pc (t.erase it) ∧ (t.erase it).anns = rest ∧
    (t.erase it).currentSequence = t.currentSequence := by
  obtain ⟨rest, rfl⟩ := exists_list rest
  obtain ⟨⟨hph, atHash⟩, permTime, atTime⟩ := wf.addresses anns
  have newHash := eraseP_perm atHash hph
  have newTime := eraseP_perm atTime permTime
  have newAnns : (t.erase it).anns = rest := Multiset.coe_eq_coe.mpr newHash
  refine ⟨⟨wf.orderedByTxHash.sublist eraseP_sublist,
    wf.orderedByTime.sublist eraseP_sublist, newTime.trans newHash.symm, ?_, ?_, ?_, ?_⟩,
    newAnns, rfl⟩
  · have unique := wf.unique
    rw [anns, Multiset.map_cons, Multiset.nodup_cons] at unique
    rw [newAnns]
    exact unique.2
  · have old := wf.peerinfo.trans (recomputePeerInfo_perm hph)
    refine Eq.trans ?_ (recomputePeerInfo_perm newHash).symm
    change update t.peerinfo it.peer _ = _
    rw [old, recomputePeerInfo_cons, update_self, update_idem, Option.bind_some,
      PeerInfo.remove_count]
    refine (update_eq_self_iff).mpr ?_
    cases others : recomputePeerInfo rest it.peer with
    | none => exact if_pos rfl
    | some info => exact if_neg (recomputePeerInfo_pos others).ne'
  · intro ann hm
    rw [newAnns] at hm
    exact wf.sequences ann (anns ▸ Multiset.mem_cons_of_mem hm)
  · have received := wf.received
    rw [anns, Multiset.map_cons, Multiset.nodup_cons] at received
    rw [newAnns]
    exact received.2

lemma WellFormed.insert (it : Announcement H P)
  (fresh : ∀ a ∈ t.anns, a.address ≠ it.address) (hd : it.state = .candidateDelayed)
  (hse : it.sequence = t.currentSequence) : let t' : Tracker H P :=
    { currentSequence := t.currentSequence + 1
      index := ⟨insertUpper (byTxHashView pc) it t.index.byTxHash,
        insertUpper byTimeView it t.index.byTime⟩
      peerinfo := update t.peerinfo it.peer (some { (t.peerinfo it.peer).getD .new with
          total := ((t.peerinfo it.peer).getD .new).total + 1 }) }
  WellFormed pc t' ∧ t'.anns = it ::ₘ t.anns := by
  intro t'
  have newHash : t'.index.byTxHash.Perm (it :: t.index.byTxHash) := insertUpper_perm it _
  have newTime : t'.index.byTime.Perm (it :: t.index.byTime) := insertUpper_perm it _
  have newAnns : t'.anns = it ::ₘ t.anns := Multiset.coe_eq_coe.mpr newHash
  refine ⟨⟨insertUpper_ordered wf.orderedByTxHash, insertUpper_ordered wf.orderedByTime,
    newTime.trans ((wf.same.cons it).trans newHash.symm), ?_, ?_, ?_, ?_⟩, newAnns⟩
  · rw [newAnns, Multiset.map_cons, Multiset.nodup_cons]
    refine ⟨fun hm => ?_, wf.unique⟩
    obtain ⟨a, hma, hs⟩ := Multiset.mem_map.mp hm
    exact fresh a hma hs
  · refine Eq.trans ?_ (recomputePeerInfo_perm newHash).symm
    rw [recomputePeerInfo_cons, ← wf.peerinfo, hd]
    rfl
  · intro a hm
    rw [newAnns, Multiset.mem_cons] at hm
    rcases hm with rfl | hm
    · exact hse.trans_lt (Nat.lt_succ_self _)
    · exact (wf.sequences a hm).trans (Nat.lt_succ_self _)
  · rw [newAnns, Multiset.map_cons, Multiset.nodup_cons]
    refine ⟨fun hm => ?_, wf.received⟩
    obtain ⟨a, hma, hs⟩ := Multiset.mem_map.mp hm
    exact absurd (wf.sequences a hma) (not_lt.mpr (hse.symm.trans hs.symm).le)

end

variable {H P : Type} {pc : PriorityComputer H P} {it c : Announcement H P}
  {M rest : Multiset (Announcement H P)} {it' : Announcement H P} {txhash : H} {newState : State}

namespace Announcement

@[simp, grind =] lemma setState_state (state : State) (ann : Announcement H P) :
  (ann.setState state).state = state := rfl

@[simp, grind =] lemma setState_txhash (state : State) (ann : Announcement H P) :
  (ann.setState state).txhash = ann.txhash := rfl

@[simp, grind =] lemma setState_ofAnn (state : State) (ann : Announcement H P) :
  pc.ofAnn (ann.setState state) = pc.ofAnn ann := rfl

@[grind =] lemma isSelected_iff (ann : Announcement H P) :
  ann.isSelected = true ↔ ann.state = .candidateBest ∨ ann.state = .requested := by
  simp [isSelected]

end Announcement

/-- Some announcement of the hash is not completed. -/
def Alive (M : Multiset (Announcement H P)) (txhash : H) : Prop :=
  ∃ b ∈ M, b.txhash = txhash ∧ b.state ≠ .completed

/-- Some announcement of the hash is selected. -/
def Selects (M : Multiset (Announcement H P)) (txhash : H) : Prop :=
  ∃ b ∈ M, b.txhash = txhash ∧ b.isSelected = true

@[grind =] lemma alive_cons :
  Alive (it ::ₘ M) txhash ↔ (it.txhash = txhash ∧ it.state ≠ .completed) ∨ Alive M txhash := by
  simp [Alive, or_and_right, exists_or]

@[grind =] lemma selects_cons :
  Selects (it ::ₘ M) txhash ↔ (it.txhash = txhash ∧ it.isSelected = true) ∨ Selects M txhash := by
  simp [Selects, or_and_right, exists_or]

/-- What the states of the announcements keep to. -/
structure Valid (computer : PriorityComputer H P) (M : Multiset (Announcement H P)) : Prop where
  alive : ∀ a ∈ M, Alive M a.txhash
  one : ∀ a ∈ M, ∀ b ∈ M, a.txhash = b.txhash → a.isSelected = true → b.isSelected = true → a = b
  ready : ∀ a ∈ M, a.state = .candidateReady → Selects M a.txhash
  best : ∀ a ∈ M, ∀ b ∈ M, a.txhash = b.txhash → a.state = .candidateReady →
    b.state = .candidateBest → computer.ofAnn a ≤ computer.ofAnn b

/-- A candidate that has been waiting is better than all that are ready. -/
lemma Valid.promote_best (hv : Valid pc (it ::ₘ rest)) (hd : it.state = .candidateDelayed)
  (top : ∀ b ∈ rest, b.txhash = it.txhash → b.isSelected = false ∧
    (b.state = .candidateReady → pc.ofAnn b ≤ pc.ofAnn it)) :
  Valid pc (it.setState .candidateBest ::ₘ rest) := by
  cases hv
  constructor <;> grind

/-- A candidate that has been waiting takes the place of the best one. -/
lemma Valid.promote_over (hv : Valid pc (it ::ₘ c ::ₘ rest))
  (hd : it.state = .candidateDelayed) (hs : c.txhash = it.txhash)
  (hb : c.state = .candidateBest) (less : pc.ofAnn c < pc.ofAnn it) (fresh : c ∉ rest) :
  Valid pc (it.setState .candidateBest ::ₘ c.setState .candidateReady ::ₘ rest) := by
  cases hv
  constructor <;> grind

/-- A candidate that has been waiting is not better than what is selected. -/
lemma Valid.promote_ready (hv : Valid pc (it ::ₘ rest))
  (hd : it.state = .candidateDelayed) (hm : c ∈ rest) (hsa : c.txhash = it.txhash)
  (hb : c.state = .requested ∨ (c.state = .candidateBest ∨ c.state = .candidateReady) ∧
    pc.ofAnn it ≤ pc.ofAnn c) : Valid pc (it.setState .candidateReady ::ₘ rest) := by
  have selects : Selects rest it.txhash := by
    by_cases hs : c.isSelected = true
    · exact ⟨c, hm, hsa, hs⟩
    · have isReady : c.state = .candidateReady := by grind
      have := hv.ready c (Multiset.mem_cons_of_mem hm) isReady
      grind
  cases hv
  constructor <;> grind

/-- The best of the ready candidates is selected in place of an announcement. -/
lemma Valid.reselect (hv : Valid pc (it ::ₘ c ::ₘ rest)) (fresh : it ∉ rest)
  (hs : it.isSelected = true) (hsa : c.txhash = it.txhash) (hre : c.state = .candidateReady)
  (top : ∀ b ∈ rest, b.txhash = it.txhash → b.state = .candidateReady → pc.ofAnn b ≤ pc.ofAnn c)
  (hu : newState = .completed ∨ newState = .candidateDelayed) :
  Valid pc (it.setState newState ::ₘ c.setState .candidateBest ::ₘ rest) := by
  cases hv
  constructor <;> grind

/-- No other candidate is ready. -/
lemma Valid.unselect (hv : Valid pc (it ::ₘ rest))
  (none : it.isSelected = true → ∀ b ∈ rest, b.txhash = it.txhash → b.state ≠ .candidateReady)
  (hu : newState = .completed ∨ newState = .candidateDelayed)
  (hs : newState = .completed → Alive rest it.txhash) :
  Valid pc (it.setState newState ::ₘ rest) := by
  cases hv
  constructor <;> grind

/-- A candidate is requested when nothing else of its hash is selected. -/
lemma Valid.request (hv : Valid pc (it ::ₘ rest))
  (hs : it'.txhash = it.txhash) (hre : it'.state = .requested)
  (none : ∀ b ∈ rest, b.txhash = it.txhash → b.isSelected = false) : Valid pc (it' ::ₘ rest) := by
  cases hv
  constructor <;> grind

/-- A candidate is requested in place of what was selected. -/
lemma Valid.request_over {c' : Announcement H P} (hv : Valid pc (it ::ₘ c ::ₘ rest))
  (hs : it'.txhash = it.txhash) (hre : it'.state = .requested)
  (hso : c'.txhash = it.txhash) (hso' : c.txhash = it.txhash)
  (hse : c.isSelected = true) (fresh : c ∉ rest) (hrel : c'.isSelected = false) :
  Valid pc (it' ::ₘ c' ::ₘ rest) := by
  cases hv
  constructor <;> grind

lemma Valid.drop (hv : Valid pc (it ::ₘ rest)) (hc : it.state = .completed) : Valid pc rest := by
  cases hv
  constructor <;> grind

/-- A new candidate waits. -/
lemma Valid.announce (hv : Valid pc rest) (hd : it.state = .candidateDelayed) :
  Valid pc (it ::ₘ rest) := by
  cases hv
  constructor <;> grind

lemma Valid.forget [DecidableEq H] (hv : Valid pc M) (txhash : H) :
  Valid pc (M.filter fun a => a.txhash ≠ txhash) := by
  have alive_filter : ∀ h, h ≠ txhash → Alive M h → Alive (M.filter fun a => a.txhash ≠ txhash) h := by
    rintro h other ⟨b, hm, rfl, state⟩
    exact ⟨b, Multiset.mem_filter.mpr ⟨hm, other⟩, rfl, state⟩
  have selects_filter : ∀ h, h ≠ txhash → Selects M h →
    Selects (M.filter fun a => a.txhash ≠ txhash) h := by
    rintro h other ⟨b, hm, rfl, state⟩
    exact ⟨b, Multiset.mem_filter.mpr ⟨hm, other⟩, rfl, state⟩
  cases hv
  constructor <;> grind [Multiset.mem_filter]

end TxRequest
