import Andaluzcoin.TxRequestBook
import Andaluzcoin.TxRequestSteps

/-!
# The calls of the request tracker

The loops and the public functions, each described by what it does to the announcements. Completing
an announcement may drop the others of its hash; what remains at the end of a loop is what remains if
the hashes without a live announcement are dropped once.
-/

namespace TxRequest

open LiveGroups List Multiset Option Announcement Tracker State
open Prod.Lex (toLex_le_toLex)

section
variable {H P : Type} {M : Multiset (Announcement H P)} {it : Announcement H P}
  {txhash : H} {rest : Multiset (Announcement H P)}

def Announcement.isAlive (ann : Announcement H P) : Bool := ann.state ≠ .completed

lemma lives_iff : Lives Announcement.txhash isAlive M txhash ↔ Alive M txhash := by
  simp [Lives, Alive, isAlive]

@[simp] lemma blur_txhash (ann : Announcement H P) : ann.blur.txhash = ann.txhash := by
  rw [blur]
  split <;> rfl

@[simp] lemma blur_peer (ann : Announcement H P) : ann.blur.peer = ann.peer := by
  rw [blur]
  split <;> rfl

@[simp] lemma blur_completed (ann : Announcement H P) :
  ann.blur.state = .completed ↔ ann.state = .completed := by
  rw [blur]
  split <;> simp [*]

lemma alive_blurred : Alive (blurred M) txhash ↔ Alive M txhash := by
  simp [Alive, blurred]

section
variable (p : Announcement H P → Prop) (hb : ∀ a, p a.blur ↔ p a)
include p hb

lemma blurred_filter [DecidablePred p] : (blurred M).filter p = blurred (M.filter p) := by
  rw [blurred, Multiset.filter_map]
  exact congrArg _ (filter_congr fun a _ => hb a)

lemma countP_blurred [DecidablePred p] : (blurred M).countP p = M.countP p := by
  rw [countP_eq_card_filter, blurred_filter p hb, blurred, card_map, countP_eq_card_filter]

end

lemma map_blurred_eq_self {f : Announcement H P → Announcement H P}
  (self : ∀ a ∈ M, f a.blur = a.blur) : (blurred M).map f = blurred M := by
  refine (map_congr rfl fun a hm => ?_).trans (map_id _)
  obtain ⟨b, hmb, rfl⟩ := mem_map.mp hm
  exact self b hmb

/-- What has been completed is among the announcements as it is. -/
lemma exists_cons_of_blurred (hbe : blurred M = it ::ₘ blurred rest) (hc : it.state = .completed) :
  ∃ rest', M = it ::ₘ rest' ∧ blurred rest' = blurred rest := by
  obtain ⟨a, hm, eq⟩ := mem_map.mp (hbe ▸ mem_cons_self it _)
  have stateA : a.state = .completed := by rw [← blur_completed, eq, hc]
  obtain rfl : a = it := (blur_of_ne (by rw [stateA]; decide)).symm.trans eq
  obtain ⟨rest', rfl⟩ := exists_cons_of_mem hm
  rw [blurred_cons, eq, Multiset.cons_inj_right] at hbe
  exact ⟨rest', rfl, hbe⟩

variable [DecidableEq H]

/-- Drop the hashes of which all announcements are completed. -/
def purged (M : Multiset (Announcement H P)) : Multiset (Announcement H P) :=
  purge Announcement.txhash isAlive M

lemma purged_le (M : Multiset (Announcement H P)) : purged M ≤ M := filter_le _ M

lemma purged_eq_self (ha : ∀ a ∈ M, Alive M a.txhash) : purged M = M :=
  purge_eq_self fun a hm => lives_iff.mpr (ha a hm)

lemma Valid.purged_blurred {pc : PriorityComputer H P} (hv : Valid pc M) :
  purged (blurred M) = blurred M := by
  refine purged_eq_self fun a hm => ?_
  obtain ⟨b, hmb, rfl⟩ := mem_map.mp hm
  rw [alive_blurred, blur_txhash]
  exact hv.alive b hmb

/-- Changes that complete announcements may be made after dropping. -/
lemma purged_map_purged {f : Announcement H P → Announcement H P}
  (hk : ∀ a, (f a).txhash = a.txhash)
  (dies : ∀ a, a.state = .completed → (f a).state = .completed) :
  purged ((purged M).map f) = purged (M.map f) := by
  rw [← Multiset.filterMap_eq_map]
  refine purge_filterMap_purge (fun a b eq => ?_) fun a b eq live => ?_
  · obtain rfl := Option.some.inj eq
    exact hk a
  · obtain rfl := Option.some.inj eq
    simp only [isAlive, decide_eq_true_eq] at live ⊢
    exact mt (dies a) live

lemma purged_filter_purged (p : Announcement H P → Prop) [DecidablePred p] :
  purged ((purged M).filter p) = purged (M.filter p) := by
  rw [← Multiset.filterMap_eq_filter]
  refine purge_filterMap_purge (fun a b eq => ?_) fun a b eq live => ?_
  · obtain ⟨rfl, -⟩ := guard_eq_some_iff.mp eq
    rfl
  · obtain ⟨rfl, -⟩ := guard_eq_some_iff.mp eq
    exact live

variable (it) in
lemma purged_cons_dead (hc : it.state = .completed)
  (dead : ¬ Alive rest it.txhash) : purged (it ::ₘ rest) = purged rest := by
  have lives : ∀ txhash, Lives Announcement.txhash isAlive (it ::ₘ rest) txhash ↔
    Lives Announcement.txhash isAlive rest txhash := by
    intro txhash
    rw [lives_iff, lives_iff, alive_cons]
    simp [hc]
  rw [purged, purge, filter_cons_of_neg _ (by rwa [lives, lives_iff])]
  exact filter_congr fun a _ => lives a.txhash

/-- One hash has no live announcements. -/
lemma purged_dead (ho : ∀ a ∈ M, a.txhash ≠ txhash → Alive M a.txhash)
  (dead : ¬ Alive M txhash) : purged M = M.filter fun a => a.txhash ≠ txhash := by
  refine filter_congr fun a hm => ?_
  rw [lives_iff]
  exact ⟨fun ha hs => dead (hs ▸ ha), ho a hm⟩

lemma countP_purged_le (p : Announcement H P → Prop) [DecidablePred p] :
  (purged M).countP p ≤ M.countP p :=
  countP_le_of_le p (purged_le M)

end

section
variable {H P : Type} {M : Multiset (Announcement H P)} {ann : Announcement H P} {now : ℤ}

namespace Announcement

section
variable (now : ℤ) (ann : Announcement H P)

/-- The time of an announcement passes. -/
def pass : Announcement H P :=
  if ann.time ≤ now then
    if ann.state = .candidateDelayed then ann.setState .candidateReady
    else if ann.state = .requested then ann.setState .completed
    else ann
  else ann

/-- The time of a candidate has not come. -/
def delay : Announcement H P :=
  if ann.isSelectable ∧ now < ann.time then ann.setState .candidateDelayed else ann

/-- The request has expired. -/
def isExpired : Bool := ann.state = .requested ∧ ann.time ≤ now

@[simp] lemma blur_time : ann.blur.time = ann.time := by
  rw [blur]
  split <;> rfl

lemma blur_setState (state : State) : ann.blur.setState state = ann.setState state := by
  rw [blur]
  split <;> rfl

@[simp] lemma blur_isWaiting : ann.blur.isWaiting = ann.isWaiting := by
  rw [blur]
  split <;> simp [isWaiting, *]

@[simp] lemma blur_isSelectable : ann.blur.isSelectable = ann.isSelectable := by
  rw [blur]
  split <;> simp [isSelectable, *]

lemma getWaitState_value :
  ann.getWaitState.value = if ann.isWaiting then 0 else if ann.isSelectable then 2 else 1 := by
  rw [getWaitState]
  split_ifs <;> rfl

lemma pass_txhash : (ann.pass now).txhash = ann.txhash := by
  rw [pass]
  split_ifs <;> rfl

end

lemma pass_eq_self (hl : ann.isWaiting = true → now < ann.time) : ann.pass now = ann := by
  rw [pass]
  split_ifs with time hd hr
  · exact absurd time (not_le.mpr (hl (by simp [isWaiting, hd])))
  · exact absurd time (not_le.mpr (hl (by simp [isWaiting, hr])))
  · rfl
  · rfl

lemma delay_eq_self (past : ann.isSelectable = true → ann.time ≤ now) : ann.delay now = ann :=
  if_neg fun ⟨hs, time⟩ => absurd time (not_lt.mpr (past hs))

lemma pass_completed (now : ℤ) (hc : ann.state = .completed) :
  (ann.pass now).state = .completed := by
  rw [pass]
  split_ifs <;> simp_all

end Announcement

lemma byTimeView_le {a b : Announcement H P} : byTimeView a ≤ byTimeView b ↔
  a.getWaitState.value < b.getWaitState.value ∨
    a.getWaitState.value = b.getWaitState.value ∧ a.time ≤ b.time :=
  toLex_le_toLex

/-- The peers and hashes of the requests that have expired. -/
def expiredRequests (now : ℤ) (M : Multiset (Announcement H P)) : Multiset (P × GenTxid H) :=
  (M.filter fun a => a.isExpired now).map fun a => (a.peer, a.gtxid)

lemma expiredRequests_cons_of_pos (expired : ann.isExpired now = true) :
  expiredRequests now (ann ::ₘ M) = (ann.peer, ann.gtxid) ::ₘ expiredRequests now M := by
  rw [expiredRequests, filter_cons_of_pos
    (p := fun a : Announcement H P => a.isExpired now = true) _ expired, Multiset.map_cons]
  rfl

lemma expiredRequests_cons_of_neg (hr : ¬ ann.isExpired now = true) :
  expiredRequests now (ann ::ₘ M) = expiredRequests now M := by
  rw [expiredRequests,
    filter_cons_of_neg (p := fun a : Announcement H P => a.isExpired now = true) _ hr]
  rfl

lemma expiredRequests_purged [DecidableEq H] (now : ℤ) :
  expiredRequests now (purged M) = expiredRequests now M := by
  rw [expiredRequests, purged, purge, Multiset.filter_filter]
  refine congrArg _ (filter_congr fun a hm => and_iff_left_of_imp fun expired => ?_)
  obtain ⟨hr, -⟩ := of_decide_eq_true expired
  exact ⟨a, hm, rfl, by simp [isAlive, hr]⟩

end

variable {H P : Type} [LinearOrder H] [DecidableEq P] {pc : PriorityComputer H P}
  {t : Tracker H P} {it : Announcement H P} {rest : Multiset (Announcement H P)}
  {a : Announcement H P} {txhash : H} {M : Multiset (Announcement H P)} {peer : P}
  {t' : Tracker H P} {expiry now : ℤ}

lemma makeCompleted_spec (sound : Sound pc t) (anns : t.anns = it ::ₘ rest)
  (hc : it.state ≠ .completed) : ((t.makeCompleted pc it).2 = true ↔ Alive rest it.txhash) ∧
    Leaves pc t (t.makeCompleted pc it).1 (purged (it.setState .completed ::ₘ blurred rest)) := by
  by_cases ha : Alive rest it.txhash
  · obtain ⟨hs, leaves⟩ := makeCompleted_stays sound anns hc ha
    refine ⟨iff_of_true hs ha, ?_⟩
    rw [← leaves.anns, leaves.sound.valid.purged_blurred, leaves.anns]
    exact leaves
  obtain ⟨drops, leaves⟩ := makeCompleted_drops sound anns hc ha
  refine ⟨iff_of_false (by rw [drops]; decide) ha, ?_⟩
  have dead := mt alive_blurred.mp ha
  rw [purged_cons_dead (it.setState .completed) rfl dead, purged_dead ?_ dead]
  · rw [anns, filter_cons_of_neg (p := fun a : Announcement H P => a.txhash ≠ it.txhash) _
      (by simp)] at leaves
    rw [blurred_filter _ (by simp)]
    exact leaves
  intro a hm other
  obtain ⟨b, hmb, rfl⟩ := mem_map.mp hm
  have aliveB := sound.valid.alive b (anns ▸ mem_cons_of_mem hmb)
  rw [anns, alive_cons] at aliveB
  rw [blur_txhash] at other
  rw [alive_blurred, blur_txhash]
  exact aliveB.resolve_left fun first => other first.1.symm

lemma Leaves.trans {t'' : Tracker H P} {N : Multiset (Announcement H P)}
  (first : Leaves pc t t' M) (hs : Leaves pc t' t'' N) : Leaves pc t t'' N :=
  ⟨hs.sound, hs.anns, hs.sequence.trans first.sequence⟩

section
variable (sound : Sound pc t)
include sound

lemma Sound.leaves : Leaves pc t t (blurred t.anns) := ⟨sound, rfl, rfl⟩

lemma Sound.erase (anns : t.anns = it ::ₘ rest)
  (hc : it.state = .completed) : Leaves pc t (t.erase it) (purged (blurred rest)) := by
  have valid := sound.valid
  rw [anns] at valid
  obtain ⟨wf, hae, sequence⟩ := sound.wellFormed.erase anns
  have validRest := valid.drop hc
  refine ⟨⟨wf, hae ▸ validRest⟩, ?_, sequence⟩
  rw [hae, validRest.purged_blurred]

lemma disconnect_round (anns : t.anns = it ::ₘ rest) : Leaves pc t
    (if (t.makeCompleted pc it).2 = true then
      (t.makeCompleted pc it).1.erase (it.setState .completed)
    else (t.makeCompleted pc it).1) (purged (blurred rest)) := by
  by_cases hc : it.state = .completed
  · rw [makeCompleted, if_pos hc, setState_self hc]
    exact sound.erase anns hc
  obtain ⟨hs, leaves⟩ := makeCompleted_spec sound anns hc
  split_ifs with he
  · obtain ⟨-, leaves⟩ := makeCompleted_stays sound anns hc (hs.mp he)
    obtain ⟨rest', annsMade, hsa⟩ := exists_cons_of_blurred leaves.anns rfl
    rw [← hsa]
    exact leaves.trans (leaves.sound.erase annsMade rfl)
  · have dead := mt alive_blurred.mp (mt hs.mpr he)
    rwa [purged_cons_dead (it.setState .completed) rfl dead] at leaves

lemma Sound.none_of_peer {peer : P} (none : ∀ a ∈ t.anns, a.peer ≠ peer) :
  Leaves pc t t (purged ((blurred t.anns).filter fun a => a.peer ≠ peer)) := by
  rw [blurred_filter _ (by simp), filter_eq_self.mpr none, sound.valid.purged_blurred]
  exact sound.leaves

end

omit [LinearOrder H] in
lemma mem_byPeer : a ∈ t.byPeer peer ↔ a ∈ t.anns ∧ a.peer = peer := by
  rw [byPeer, mem_append, mem_filter, mem_filter, anns, mem_coe]
  by_cases best : a.state = .candidateBest <;> simp [best]

lemma disconnectLoop_spec (peer : P) (fuel : ℕ) (sound : Sound pc t)
  (he : t.anns.countP (fun a => a.peer = peer) ≤ fuel) : Leaves pc t (disconnectLoop pc peer fuel t)
    (purged ((blurred t.anns).filter fun a => a.peer ≠ peer)) := by
  induction fuel generalizing t with
  | zero =>
    exact sound.none_of_peer (countP_eq_zero.mp (Nat.le_zero.mp he))
  | succ fuel ih =>
    rw [disconnectLoop]
    split
    · next none =>
      rw [head?_eq_none_iff] at none
      refine sound.none_of_peer fun a hm isPeer => ?_
      have listed := mem_byPeer.mpr ⟨hm, isPeer⟩
      rw [none] at listed
      cases listed
    · next it hf =>
      obtain ⟨hm, isPeer⟩ := mem_byPeer.mp (mem_of_mem_head? hf)
      obtain ⟨rest, anns⟩ := exists_cons_of_mem hm
      have round := disconnect_round sound anns
      have fewer : countP (fun a => a.peer = peer) (purged (blurred rest)) ≤ fuel := by
        refine (countP_purged_le _).trans ?_
        rw [countP_blurred _ (by simp)]
        rw [anns, Multiset.countP_cons] at he
        simpa [isPeer] using he
      rw [← round.anns, countP_blurred _ (by simp)] at fewer
      have later := ih round.sound fewer
      rw [round.anns, purged_filter_purged] at later
      rw [anns, blurred_cons, filter_cons_of_neg _ (by simp [isPeer])]
      rw [apply_ite (disconnectLoop pc peer fuel)] at later
      exact round.trans later

lemma disconnectedPeer_spec (sound : Sound pc t) (peer : P) :
  Leaves pc t (t.disconnectedPeer pc peer)
    (purged ((blurred t.anns).filter fun a => a.peer ≠ peer)) :=
  disconnectLoop_spec peer _ sound (countP_le_card _ _)

section
variable (wf : WellFormed pc t)
include wf

lemma WellFormed.mem_byTime : a ∈ t.index.byTime ↔ a ∈ t.anns := wf.same.mem_iff

/-- The first announcement of `ByTime` is not to be changed: all that wait do so for a later time. -/
lemma WellFormed.all_wait
  (hf : t.index.byTime.head? = some it) (hwa : it.isWaiting = true → now < it.time) :
  ∀ a ∈ t.anns, a.isWaiting = true → now < a.time := by
  intro a hm hw
  have le := wf.orderedByTime.head_le hf (wf.mem_byTime.mpr hm)
  simp only [byTimeView_le, getWaitState_value, hw, if_true] at le
  by_cases first : it.isWaiting = true
  · simp only [first, if_true, lt_irrefl, false_or, true_and] at le
    exact (hwa first).trans_le le
  · split_ifs at le <;> simp at le

/-- The last announcement of `ByTime` is not to be changed: none is ready before its time. -/
lemma WellFormed.all_past
  (hl : t.index.byTime.getLast? = some it) (past : it.isSelectable = true → it.time ≤ now) :
  ∀ a ∈ t.anns, a.isSelectable = true → a.time ≤ now := by
  intro a hm hs
  have notWaiting : a.isWaiting = false := by
    simp only [isSelectable, isWaiting] at hs ⊢
    rcases of_decide_eq_true hs with state | state <;> simp [state]
  have le := wf.orderedByTime.le_getLast hl (wf.mem_byTime.mpr hm)
  simp only [byTimeView_le, getWaitState_value, hs, notWaiting, if_true,
    Bool.false_eq_true, if_false] at le
  split_ifs at le with hw last
  · simp at le
  · simp only [lt_irrefl, false_or, true_and] at le
    exact le.trans (past last)
  · simp at le

end

omit [LinearOrder H] [DecidableEq P] in
lemma countP_round {p : Announcement H P → Bool} {fuel : ℕ}
  (anns : t.anns = it ::ₘ rest) (hb : ∀ a, p a.blur = p a) (hh : p it = true)
  (he : t.anns.countP (fun a => p a = true) ≤ fuel + 1)
  (hr : blurred t'.anns ≤ a ::ₘ blurred rest) (off : p a = false) :
  t'.anns.countP (fun a => p a = true) ≤ fuel := by
  rw [anns, Multiset.countP_cons, if_pos hh] at he
  rw [← countP_blurred _ (by simp [hb])]
  refine (countP_le_of_le _ hr).trans ?_
  rw [countP_cons_of_neg _ (by simp [off]), countP_blurred _ (by simp [hb])]
  exact Nat.le_of_succ_le_succ he

/-- No announcement is left whose time has passed. -/
lemma Sound.nothing_passes (sound : Sound pc t)
  (hl : ∀ a ∈ t.anns, a.isWaiting = true → now < a.time) (expired : List (P × GenTxid H)) :
  Leaves pc t t (purged ((blurred t.anns).map (.pass now))) ∧
    (expired : Multiset (P × GenTxid H)) = expired + expiredRequests now (blurred t.anns) := by
  have unchanged := map_blurred_eq_self fun a hm => pass_eq_self (by simpa using hl a hm)
  have none : expiredRequests now (blurred t.anns) = 0 := by
    refine map_eq_zero.mpr (filter_eq_nil.mpr fun a hm isExpired => ?_)
    obtain ⟨b, hmb, rfl⟩ := Multiset.mem_map.mp hm
    obtain ⟨hr, time⟩ := of_decide_eq_true isExpired
    have waiting : b.blur.isWaiting = true := by simp [isWaiting, hr]
    rw [blur_isWaiting] at waiting
    rw [blur_time] at time
    exact absurd time (not_le.mpr (hl b hmb waiting))
  rw [unchanged, none, sound.valid.purged_blurred, add_zero]
  exact ⟨sound.leaves, rfl⟩

lemma passEvents_spec (now : ℤ) (fuel : ℕ) (sound : Sound pc t)
  (he : t.anns.countP (fun a => a.isWaiting = true) ≤ fuel) (expired : List (P × GenTxid H)) :
  Leaves pc t (passEvents pc now fuel t expired).1 (purged ((blurred t.anns).map (.pass now))) ∧
    ((passEvents pc now fuel t expired).2 : Multiset (P × GenTxid H)) =
      expired + expiredRequests now (blurred t.anns) := by
  induction fuel generalizing t expired with
  | zero =>
    refine sound.nothing_passes (fun a member hw => ?_) expired
    exact absurd hw (countP_eq_zero.mp (Nat.le_zero.mp he) a member)
  | succ fuel ih =>
    rw [passEvents]
    split
    · next none =>
      refine sound.nothing_passes (fun a member _ => ?_) expired
      have listed := sound.wellFormed.mem_byTime.mpr member
      rw [head?_eq_none_iff.mp none] at listed
      cases listed
    · next it hf =>
      have member := sound.wellFormed.mem_byTime.mp (mem_of_mem_head? hf)
      obtain ⟨rest, anns⟩ := exists_cons_of_mem member
      split_ifs with hd hr
      · obtain ⟨state, time⟩ := hd
        have round := promoteCandidateReady_spec sound anns state
        have fewer := countP_round anns blur_isWaiting (by simp [isWaiting, state])
          he round.anns.le (by simp [isWaiting])
        obtain ⟨leaves, listed⟩ := ih round.sound fewer expired
        have same : blurred t.anns = it ::ₘ blurred rest := by
          rw [anns, blurred_cons, blur_of_ne (by simp [state])]
        have passed : (it.setState .candidateReady).pass now = it.pass now := by
          simp [Announcement.pass, state, time]
        rw [round.anns, Multiset.map_cons, passed, ← Multiset.map_cons, ← same] at leaves
        rw [round.anns, expiredRequests_cons_of_neg (by simp [isExpired])] at listed
        rw [same, expiredRequests_cons_of_neg (by simp [isExpired, state]), ← same]
        exact ⟨round.trans leaves, listed⟩
      · obtain ⟨state, time⟩ := hr
        obtain ⟨-, round⟩ := makeCompleted_spec sound anns (by simp [state])
        have fewer := countP_round anns blur_isWaiting (by simp [isWaiting, state])
          he (round.anns.le.trans (purged_le _)) (by simp [isWaiting])
        obtain ⟨leaves, listed⟩ := ih round.sound fewer (expired ++ [(it.peer, it.gtxid)])
        have same : blurred t.anns = it ::ₘ blurred rest := by
          rw [anns, blurred_cons, blur_of_ne (by simp [state])]
        have passed : (it.setState .completed).pass now = it.pass now := by
          simp [Announcement.pass, state, time, setState]
        rw [round.anns, purged_map_purged (pass_txhash now) (fun a => pass_completed now),
          Multiset.map_cons, passed, ← Multiset.map_cons, ← same] at leaves
        rw [round.anns, expiredRequests_purged, expiredRequests_cons_of_neg (by simp [isExpired])] at listed
        refine ⟨round.trans leaves, ?_⟩
        rw [listed, same, expiredRequests_cons_of_pos (by simp [isExpired, state, time]),
          ← coe_add, coe_singleton, add_assoc, singleton_add]
      · refine sound.nothing_passes (sound.wellFormed.all_wait hf fun hw => ?_) expired
        rcases of_decide_eq_true hw with state | state
        · exact not_le.mp fun time => hr ⟨state, time⟩
        · exact not_le.mp fun time => hd ⟨state, time⟩

lemma Sound.nothing_early (sound : Sound pc t)
  (past : ∀ a ∈ t.anns, a.isSelectable = true → a.time ≤ now) :
  Leaves pc t t ((blurred t.anns).map (.delay now)) := by
  rw [map_blurred_eq_self fun a hm => delay_eq_self (by simpa using past a hm)]
  exact sound.leaves

lemma delayEvents_spec (now : ℤ) (fuel : ℕ) (sound : Sound pc t)
  (he : t.anns.countP (fun a => a.isSelectable = true) ≤ fuel) :
  Leaves pc t (delayEvents pc now fuel t) ((blurred t.anns).map (.delay now)) := by
  induction fuel generalizing t with
  | zero =>
    refine sound.nothing_early fun a member hs => ?_
    exact absurd hs (countP_eq_zero.mp (Nat.le_zero.mp he) a member)
  | succ fuel ih =>
    rw [delayEvents]
    split
    · next none =>
      refine sound.nothing_early fun a member _ => ?_
      have listed := sound.wellFormed.mem_byTime.mpr member
      rw [getLast?_eq_none_iff.mp none] at listed
      cases listed
    · next it hl =>
      have member := sound.wellFormed.mem_byTime.mp (mem_of_mem_getLast? hl)
      obtain ⟨rest, anns⟩ := exists_cons_of_mem member
      split_ifs with early
      · have round := changeAndReselect_spec sound anns .candidateDelayed (.inr rfl) (by simp)
        have fewer := countP_round anns blur_isSelectable early.1 he round.anns.le
          (by simp [isSelectable])
        have leaves := ih round.sound fewer
        have delayed : (it.setState .candidateDelayed).delay now = it.blur.delay now := by
          rw [delay, delay, if_neg (by simp [isSelectable]),
            if_pos (by simpa using early), blur_setState]
        rw [round.anns, Multiset.map_cons, delayed, ← Multiset.map_cons, ← blurred_cons, ← anns] at leaves
        exact round.trans leaves
      · refine sound.nothing_early (sound.wellFormed.all_past hl fun hs => ?_)
        exact not_lt.mp fun time => early ⟨hs, time⟩

lemma setTimePoint_spec (sound : Sound pc t) (now : ℤ) : Leaves pc t (t.setTimePoint pc now).1
      ((purged ((blurred t.anns).map (.pass now))).map (.delay now)) ∧
    ((t.setTimePoint pc now).2 : Multiset (P × GenTxid H)) =
      expiredRequests now (blurred t.anns) := by
  obtain ⟨passed, expired⟩ := passEvents_spec now t.index.byTxHash.length sound
    (countP_le_card _ _) []
  have delayed := delayEvents_spec now _ passed.sound (countP_le_card _ _)
  rw [passed.anns] at delayed
  rw [coe_nil, zero_add] at expired
  exact ⟨passed.trans delayed, expired⟩

lemma WellFormed.address_unique (wf : WellFormed pc t) (anns : t.anns = it ::ₘ rest) :
  ∀ a ∈ rest, a.address ≠ it.address := by
  have unique := wf.unique
  rw [anns, Multiset.map_cons, Multiset.nodup_cons] at unique
  exact fun a hm hs => unique.1 (hs ▸ Multiset.mem_map_of_mem _ hm)

lemma WellFormed.lookup (wf : WellFormed pc t) (peer : P) (txhash : H) :
  (∃ it rest, t.anns = it ::ₘ rest ∧ it.address = (peer, txhash) ∧ ∀ best,
    t.find peer best txhash = if decide (it.state = .candidateBest) = best then some it else none) ∨
  (∀ a ∈ t.anns, a.address ≠ (peer, txhash)) ∧ ∀ best, t.find peer best txhash = none := by
  have found : ∀ best a, t.find peer best txhash = some a → a ∈ t.anns ∧
    a.address = (peer, txhash) ∧ decide (a.state = .candidateBest) = best := by
    intro best a found
    have passes := find?_some found
    simp only [Bool.decide_and, Bool.and_eq_true, decide_eq_true_eq] at passes
    exact ⟨mem_of_find?_eq_some found, Prod.ext passes.1 passes.2.2, passes.2.1⟩
  by_cases he : ∃ it ∈ t.anns, it.address = (peer, txhash)
  · obtain ⟨it, hm, address⟩ := he
    obtain ⟨rest, anns⟩ := exists_cons_of_mem hm
    refine .inl ⟨it, rest, anns, address, fun best => ?_⟩
    have only : ∀ a ∈ t.anns, a.address = (peer, txhash) → a = it := by
      intro a hma addressA
      rw [anns, Multiset.mem_cons] at hma
      exact hma.resolve_right fun other =>
        wf.address_unique anns a other (addressA.trans address.symm)
    split_ifs with hb
    · cases eq : t.find peer best txhash with
      | none =>
        have fails := find?_eq_none.mp eq it hm
        simp only [Announcement.address, Prod.mk.injEq] at address
        simp [address, hb] at fails
      | some a =>
        obtain ⟨hma, addressA, -⟩ := found best a eq
        rw [only a hma addressA]
    · refine eq_none_iff_forall_ne_some.mpr fun a eq => ?_
      obtain ⟨hma, addressA, bestA⟩ := found best a eq
      rw [only a hma addressA] at bestA
      exact hb bestA
  · push Not at he
    refine .inr ⟨he, fun best => eq_none_iff_forall_ne_some.mpr fun a eq => ?_⟩
    obtain ⟨hma, addressA, -⟩ := found best a eq
    exact he a hma addressA

/-- The announcement of an address is completed. -/
def Announcement.respond (peer : P) (txhash : H) (ann : Announcement H P) : Announcement H P :=
  if ann.address = (peer, txhash) then ann.setState .completed else ann

omit [LinearOrder H] [DecidableEq P] in
@[simp] lemma blur_address (ann : Announcement H P) : ann.blur.address = ann.address := by
  rw [blur]
  split <;> rfl

lemma receivedResponse_spec (sound : Sound pc t) (peer : P) (txhash : H) :
  Leaves pc t (t.receivedResponse pc peer txhash)
    (purged ((blurred t.anns).map (.respond peer txhash))) := by
  have others : ∀ M : Multiset (Announcement H P), (∀ a ∈ M, a.address ≠ (peer, txhash)) →
    (blurred M).map (.respond peer txhash) = blurred M := fun M other =>
    map_blurred_eq_self fun a hm => if_neg (by simpa using other a hm)
  rw [receivedResponse]
  rcases sound.wellFormed.lookup peer txhash with ⟨it, rest, anns, address, find⟩ | ⟨ha, find⟩
  · have unique := address ▸ sound.wellFormed.address_unique anns
    have found : (t.find peer false txhash).or (t.find peer true txhash) = some it := by
      rw [find, find]
      by_cases best : it.state = .candidateBest <;> simp [best]
    have changed : (blurred t.anns).map (.respond peer txhash) =
      it.setState .completed ::ₘ blurred rest := by
      rw [anns, blurred_cons, Multiset.map_cons, others rest unique, respond,
        if_pos ((blur_address it).trans address), blur_setState]
    rw [found, changed]
    by_cases hc : it.state = .completed
    · have made : t.makeCompleted pc it = (t, true) := if_pos hc
      have same : it.setState .completed ::ₘ blurred rest = blurred t.anns := by
        rw [setState_self hc, anns, blurred_cons, blur_of_ne (by simp [hc])]
      rw [same, sound.valid.purged_blurred]
      change Leaves pc t (t.makeCompleted pc it).1 _
      rw [made]
      exact sound.leaves
    · exact (makeCompleted_spec sound anns hc).2
  · rw [find, find, others _ ha, sound.valid.purged_blurred]
    exact sound.leaves

/-- The candidate of an address is requested; another request for the hash is completed. -/
def Announcement.request (peer : P) (txhash : H) (expiry : ℤ) (ann : Announcement H P) :
  Announcement H P :=
  if ann.address = (peer, txhash) then { ann with state := .requested, time := expiry }
  else if ann.txhash = txhash ∧ ann.state = .requested then ann.setState .completed
  else ann

def Announcement.isCandidate (ann : Announcement H P) : Bool := ann.state.value ≤ 2

variable (pc) in
omit [DecidableEq P] in
/-- Where the selected announcement of a hash stands in `ByTxHash`. -/
lemma lowerBound_le (hs : a.txhash = txhash) :
  toLex (txhash, toLex (candidateBest.value, 0)) ≤ byTxHashView pc a ↔
    2 ≤ a.state.value := by
  rw [byTxHashView, toLex_le_toLex, toLex_le_toLex]
  simp [hs, value, ← le_iff_lt_or_eq]

/-- What is selected for the hash no longer is. -/
lemma releaseSelected_spec (sound : Sound pc t) (txhash : H) :
  (∃ c rest newState, t.anns = c ::ₘ rest ∧ c.txhash = txhash ∧
    (c.state = .candidateBest ∧ newState = .candidateReady ∨
      c.state = .requested ∧ newState = .completed) ∧
    t.releaseSelected pc txhash = t.modify pc c (.setState newState)) ∨
  ¬ Selects t.anns txhash ∧ t.releaseSelected pc txhash = t := by
  by_cases selects : Selects t.anns txhash
  · obtain ⟨c, hm, hs, hse⟩ := selects
    have passes := (lowerBound_le pc hs).mpr (selected_value hse).1
    left
    obtain ⟨rest, anns⟩ := exists_cons_of_mem hm
    rw [releaseSelected]
    split
    · next none => exact absurd passes (by simpa using find?_eq_none.mp none c hm)
    · next a hf =>
      have le := sound.wellFormed.orderedByTxHash.find?_le hf hm (decide_eq_true passes)
      have memberA := mem_of_find?_eq_some hf
      have lower := find?_some hf
      rw [decide_eq_true_eq] at lower
      have sameA : a.txhash = txhash := by
        refine le_antisymm ((txhash_le_of_view_le le).trans hs.le) ?_
        rcases toLex_le_toLex.mp lower with less | ⟨eq, -⟩
        · exact less.le
        · exact eq.le
      have low := (lowerBound_le pc sameA).mp lower
      have high := state_le_of_view_le le (sameA.trans hs.symm)
      have selectedA := selected_of_value low (high.trans (selected_value hse).2)
      obtain rfl := sound.valid.one a memberA c hm (sameA.trans hs.symm) selectedA hse
      rw [if_pos hs]
      rcases (isSelected_iff a).mp hse with state | state
      · exact ⟨a, rest, _, anns, hs, .inl ⟨state, rfl⟩, if_pos state⟩
      · refine ⟨a, rest, _, anns, hs, .inr ⟨state, rfl⟩, ?_⟩
        rw [if_neg (by simp [state]), if_pos state]
  · refine .inr ⟨selects, ?_⟩
    rw [releaseSelected]
    split
    · rfl
    · next a hf =>
      have memberA := mem_of_find?_eq_some hf
      split_ifs with hs best hr
      · exact absurd ⟨a, memberA, hs, (isSelected_iff a).mpr (.inl best)⟩ selects
      · exact absurd ⟨a, memberA, hs, (isSelected_iff a).mpr (.inr hr)⟩ selects
      · rfl
      · rfl

/-- No other request for the hash exists. -/
lemma map_request_others (ho : ∀ a ∈ M, a.address ≠ (peer, txhash))
  (hu : ∀ a ∈ M, a.txhash = txhash → a.isSelected = false) :
  (blurred M).map (.request peer txhash expiry) = blurred M := by
  refine map_blurred_eq_self fun a hm => ?_
  rw [request, if_neg (by simpa using ho a hm), if_neg]
  rintro ⟨hs, hr⟩
  rw [blur_txhash] at hs
  have notSelected := hu a hm hs
  have state : a.state ≠ .candidateBest ∧ a.state ≠ .requested := by
    simpa [isSelected] using notSelected
  rw [blur_of_ne state.1] at hr
  exact state.2 hr

lemma makeRequested_spec {rest' : Multiset (Announcement H P)}
  (wf : WellFormed pc t') (anns : t'.anns = it ::ₘ rest)
  (hse : t'.currentSequence = t.currentSequence) (ha : it.address = (peer, txhash))
  (hv : Valid pc ({ it with state := .requested, time := expiry } ::ₘ rest))
  (hs : blurred rest = (blurred rest').map (.request peer txhash expiry)) :
  Leaves pc t (t'.makeRequested pc it expiry)
    ((blurred (it ::ₘ rest')).map (.request peer txhash expiry)) := by
  obtain ⟨wfNew, han, hsn⟩ := wf.modify anns
    (f := fun ann => { ann with state := .requested, time := expiry }) rfl rfl rfl
  refine ⟨⟨wfNew, ?_⟩, ?_, hsn.trans hse⟩
  · rw [makeRequested, han]
    exact hv
  rw [makeRequested, han, blurred_cons, blurred_cons, Multiset.map_cons, hs]
  congr 1
  rw [request, if_pos ((blur_address it).trans ha), Announcement.blur]
  split
  · next best => cases best
  · rw [Announcement.blur]
    split <;> rfl

variable (sound : Sound pc t)
include sound

/-- Only one announcement of a hash is selected. -/
lemma Sound.others_unselected (anns : t.anns = it ::ₘ rest) (hse : it.isSelected = true) :
  ∀ a ∈ rest, a.txhash = it.txhash → a.isSelected = false := by
  intro a hm hs
  by_contra selectedA
  have eq := sound.valid.one a (anns ▸ mem_cons_of_mem hm) it
    (anns ▸ mem_cons_self it rest) hs (Bool.not_eq_false _ ▸ selectedA) hse
  exact sound.wellFormed.fresh anns (eq ▸ hm)

lemma requestedTx_spec (peer : P) (txhash : H) (expiry : ℤ) :
  (∃ a ∈ t.anns, a.address = (peer, txhash) ∧ a.isCandidate = true) ∧
    Leaves pc t (t.requestedTx pc peer txhash expiry)
      ((blurred t.anns).map (.request peer txhash expiry)) ∨
  (∀ a ∈ t.anns, a.address = (peer, txhash) → a.isCandidate = false) ∧
    t.requestedTx pc peer txhash expiry = t := by
  rcases sound.wellFormed.lookup peer txhash with ⟨it, rest, anns, address, find⟩ | ⟨ha, find⟩
  swap
  · refine .inr ⟨fun a member at_ => absurd at_ (ha a member), ?_⟩
    rw [requestedTx, find, find]
  have unique := address ▸ sound.wellFormed.address_unique anns
  have member : it ∈ t.anns := anns ▸ mem_cons_self it rest
  have isHash : it.txhash = txhash := congrArg Prod.snd address
  have valid := sound.valid
  by_cases best : it.state = .candidateBest
  · refine .inl ⟨⟨it, member, address, by simp [isCandidate, best, value]⟩, ?_⟩
    have eq : t.requestedTx pc peer txhash expiry = t.makeRequested pc it expiry := by
      rw [requestedTx, find, if_pos (by simp [best])]
    have unselected := sound.others_unselected anns ((isSelected_iff it).mpr (.inl best))
    rw [eq, anns]
    rw [anns] at valid
    exact makeRequested_spec sound.wellFormed anns rfl address (valid.request rfl rfl unselected)
      (map_request_others unique (isHash ▸ unselected)).symm
  have findOther : t.find peer true txhash = none ∧ t.find peer false txhash = some it := by
    rw [find, find]
    simp [best]
  by_cases candidate : it.state = .candidateDelayed ∨ it.state = .candidateReady
  swap
  · refine .inr ⟨fun a hma at_ => ?_, ?_⟩
    · rw [anns, Multiset.mem_cons] at hma
      obtain rfl := hma.resolve_right fun other => unique a other at_
      cases state : a.state <;> simp [isCandidate, value, state] at candidate best ⊢
    · rw [requestedTx, findOther.1, findOther.2]
      exact if_pos (not_or.mp candidate)
  have eq : t.requestedTx pc peer txhash expiry =
    (t.releaseSelected pc txhash).makeRequested pc it expiry := by
    rw [requestedTx, findOther.1, findOther.2]
    exact if_neg fun neither => candidate.elim neither.1 neither.2
  have notSelected : it.isSelected = false := by
    rcases candidate with state | state <;> simp [isSelected, state]
  refine .inl ⟨⟨it, member, address, ?_⟩, ?_⟩
  · rcases candidate with state | state <;> simp [isCandidate, value, state]
  rw [eq]
  rcases releaseSelected_spec sound txhash with
    ⟨c, restC, newState, annsC, sameC, states, released⟩ | ⟨none, released⟩
  · -- the announcement that was selected is another one of the hash
    have selectedC : c.isSelected = true := by
      rcases states with ⟨state, -⟩ | ⟨state, -⟩ <;> simp [isSelected, state]
    have memberIt : it ∈ restC := by
      have := member
      rw [annsC, Multiset.mem_cons] at this
      refine this.resolve_left fun hs => ?_
      rw [hs, selectedC] at notSelected
      cases notSelected
    have freshC := sound.wellFormed.fresh annsC
    have unselected := sound.others_unselected annsC selectedC
    obtain ⟨rest', rfl⟩ := exists_cons_of_mem memberIt
    have annsSwap : t.anns = it ::ₘ c ::ₘ rest' := by rw [annsC, cons_swap]
    rw [annsSwap] at valid
    have uniqueC := address ▸ sound.wellFormed.address_unique annsSwap
    have others : blurred rest' = (blurred rest').map (.request peer txhash expiry) :=
      (map_request_others (fun a hma => uniqueC a (mem_cons_of_mem hma))
        fun a hma hs => unselected a (mem_cons_of_mem hma) (hs.trans sameC.symm)).symm
    have freshRest : c ∉ rest' := fun hmc => freshC (mem_cons_of_mem hmc)
    obtain ⟨wf, han, sequence⟩ := sound.wellFormed.setState annsC newState
    rw [cons_swap] at han
    rw [annsSwap, released]
    refine makeRequested_spec wf han sequence address (valid.request_over rfl rfl
      (sameC.trans isHash.symm) (sameC.trans isHash.symm) selectedC freshRest ?_) ?_
    · rcases states with ⟨-, rfl⟩ | ⟨-, rfl⟩ <;> simp [isSelected]
    rw [blurred_cons, blurred_cons, Multiset.map_cons, ← others, request,
      if_neg (by simpa using uniqueC c (mem_cons_self c rest'))]
    congr 1
    rcases states with ⟨state, rfl⟩ | ⟨state, rfl⟩
    · rw [blur_best state, blur_setState_of_ne c (by decide), if_neg (by simp)]
    · rw [blur_of_ne (show c.state ≠ .candidateBest by simp [state]),
        blur_setState_of_ne c (by decide), if_pos ⟨sameC, state⟩]
  · rw [released]
    have unselected : ∀ a ∈ rest, a.txhash = txhash → a.isSelected = false := by
      intro a hma hs
      by_contra selectedA
      exact none ⟨a, anns ▸ mem_cons_of_mem hma, hs, Bool.not_eq_false _ ▸ selectedA⟩
    rw [anns] at valid
    rw [anns]
    exact makeRequested_spec sound.wellFormed anns rfl address
      (valid.request rfl rfl (isHash ▸ unselected)) (map_request_others unique unselected).symm

lemma receivedInv_spec (peer : P) (gtxid : GenTxid H) (preferred : Bool) (reqtime : ℤ) :
  (∃ a ∈ t.anns, a.address = (peer, gtxid.hash)) ∧
    t.receivedInv pc peer gtxid preferred reqtime = t ∨
  (∀ a ∈ t.anns, a.address ≠ (peer, gtxid.hash)) ∧
    Sound pc (t.receivedInv pc peer gtxid preferred reqtime) ∧
    (t.receivedInv pc peer gtxid preferred reqtime).anns =
      ⟨gtxid, reqtime, peer, t.currentSequence, preferred, .candidateDelayed⟩ ::ₘ t.anns := by
  rw [receivedInv]
  rcases sound.wellFormed.lookup peer gtxid.hash with ⟨it, rest, anns, address, find⟩ | ⟨ha, find⟩
  · refine .inl ⟨⟨it, anns ▸ mem_cons_self it rest, address⟩, ?_⟩
    rw [find, find]
    by_cases best : it.state = .candidateBest <;> simp [best]
  refine .inr ⟨ha, ?_⟩
  rw [find, find, if_neg (by simp), if_neg (by simp)]
  have inserted := sound.wellFormed.insert
    ⟨gtxid, reqtime, peer, t.currentSequence, preferred, .candidateDelayed⟩ ha rfl rfl
  exact ⟨⟨inserted.1, inserted.2 ▸ sound.valid.announce rfl⟩, inserted.2⟩

end TxRequest
