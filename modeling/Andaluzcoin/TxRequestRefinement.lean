import Andaluzcoin.TxRequestSanity

/-!
# The request tracker keeps the book

Every call does to the announcements of the tracker what it does to the book, and `GetRequestable`
finds what the book says.
-/

namespace TxRequest

open LiveGroups List Announcement Record

section
variable {H P : Type}

namespace Announcement

/-- What the book knows of the state of an announcement. -/
def status (ann : Announcement H P) : Status :=
  match ann.state with
  | .candidateDelayed | .candidateReady | .candidateBest => .candidate ann.time
  | .requested => .requested ann.time
  | .completed => .completed

def record (ann : Announcement H P) : Record H P := ⟨ann.gtxid, ann.peer, ann.preferred, ann.status⟩

/-- A record with the number of its receipt. -/
def numbered (ann : Announcement H P) : ℕ × Record H P := (ann.sequence, ann.record)

end Announcement

/-- The announcements as they are entered in the book. -/
def Tracker.records (t : Tracker H P) : Book H P :=
  (t.index.byTxHash.insertionSort fun a b => a.sequence ≤ b.sequence).map Announcement.record

/-- A collection of numbered records is the book, by the order of their numbers. -/
def Enters (M : Multiset (ℕ × Record H P)) (book : Book H P) : Prop :=
  ∃ l : List (ℕ × Record H P), M = l ∧ l.Pairwise (fun a b => a.1 < b.1) ∧ l.map Prod.snd = book

variable {M : Multiset (ℕ × Record H P)} {book : Book H P}

variable (enters : Enters M book)
include enters

lemma Enters.map (f : Record H P → Record H P) : Enters (M.map (Prod.map id f)) (book.map f) := by
  obtain ⟨l, rfl, sorted, rfl⟩ := enters
  refine ⟨l.map (Prod.map id f), rfl, ?_, ?_⟩
  · exact pairwise_map.mpr sorted
  · rw [map_map, map_map]
    rfl

lemma Enters.filter (p : Record H P → Prop) [DecidablePred p] :
  Enters (M.filter fun r => p r.2) (book.filter fun r => p r) := by
  obtain ⟨l, rfl, sorted, rfl⟩ := enters
  refine ⟨l.filter fun r => p r.2, Multiset.filter_coe _ _, sorted.filter _, ?_⟩
  rw [filter_map]
  rfl

lemma Enters.purge [DecidableEq H] :
  Enters (purge (fun r => r.2.txhash) (fun r => r.2.isLive) M) book.purge := by
  obtain ⟨l, rfl, sorted, rfl⟩ := enters
  refine ⟨purgeList (fun r => r.2.txhash) (fun r => r.2.isLive) l, rfl, sorted.filter _, ?_⟩
  exact (purgeList_map (fun _ => rfl) (fun _ => rfl) l).symm

lemma Enters.append {n : ℕ} (ha : ∀ r ∈ M, r.1 < n) (r : Record H P) :
  Enters ((n, r) ::ₘ M) (book ++ [r]) := by
  obtain ⟨l, rfl, sorted, rfl⟩ := enters
  refine ⟨l ++ [(n, r)], ?_, ?_, ?_⟩
  · rw [← Multiset.coe_add, add_comm]
    rfl
  · refine pairwise_append.mpr ⟨sorted, pairwise_singleton _ _, ?_⟩
    intro a hma b hmb
    rw [mem_singleton.mp hmb]
    exact ha a hma
  · rw [map_append]
    rfl

lemma Enters.mem_iff {r : Record H P} : r ∈ book ↔ ∃ a ∈ M, a.2 = r := by
  obtain ⟨l, rfl, -, rfl⟩ := enters
  exact mem_map

end

section
variable {H P : Type}

namespace Announcement

lemma numbered_blur (ann : Announcement H P) : ann.blur.numbered = ann.numbered := by
  rw [blur]
  split
  · next best => simp [numbered, record, status, setState, best]
  · rfl

section
variable (now : ℤ) (ann : Announcement H P)
include now ann

lemma numbered_delay : (ann.delay now).numbered = ann.numbered := by
  rw [delay]
  split
  · next early =>
    have selectable := early.1
    simp only [isSelectable, decide_eq_true_eq] at selectable
    rcases selectable with state | state <;> simp [numbered, record, status, setState, state]
  · rfl

lemma isExpired_record : ann.record.isExpired now = ann.isExpired now := by
  cases state : ann.state <;> simp [Record.isExpired, isExpired, record, status, state]

lemma numbered_pass : (ann.pass now).numbered = Prod.map id (expire now) ann.numbered := by
  change _ = (ann.sequence, if ann.record.isExpired now then ann.record.complete else ann.record)
  rw [isExpired_record]
  by_cases expired : ann.isExpired now = true
  · obtain ⟨hr, time⟩ := of_decide_eq_true expired
    rw [if_pos expired, pass, if_pos time, if_neg (by simp [hr]), if_pos hr]
    rfl
  rw [if_neg expired, pass]
  split_ifs with time hd hr
  · simp [numbered, record, status, setState, hd]
  · exact absurd (decide_eq_true ⟨hr, time⟩) expired
  · rfl
  · rfl

end

lemma isRequested_record (ann : Announcement H P) :
  ann.record.isRequested = true ↔ ann.state = .requested := by
  cases state : ann.state <;> simp [isRequested, record, status, state]

lemma isCandidate_record (ann : Announcement H P) : ann.record.isCandidate = ann.isCandidate := by
  cases state : ann.state <;>
    simp [Record.isCandidate, isCandidate, record, status, state, State.value]

variable [LinearOrder H] [DecidableEq P]

lemma isAt_record (peer : P) (hash : H) (ann : Announcement H P) :
  ann.record.isAt peer hash = true ↔ ann.address = (peer, hash) := by
  rw [Record.isAt, decide_eq_true_iff, address, Prod.mk.injEq]
  rfl

lemma numbered_respond (peer : P) (hash : H) (ann : Announcement H P) :
  (ann.respond peer hash).numbered = Prod.map id (Record.respond peer hash) ann.numbered := by
  change _ = (ann.sequence, if ann.record.isAt peer hash then ann.record.complete else ann.record)
  simp only [isAt_record, respond]
  split_ifs
  · rfl
  · rfl

lemma numbered_request (peer : P) (hash : H) (expiry : ℤ) (ann : Announcement H P) :
  (ann.request peer hash expiry).numbered =
    Prod.map id (Record.request peer hash expiry) ann.numbered := by
  change _ = (ann.sequence, Record.request peer hash expiry ann.record)
  simp only [Record.request, isAt_record, isRequested_record, request]
  split_ifs with at_ hs hr hr
  · rfl
  · rfl
  · exact absurd hs hr
  · exact absurd hr hs
  · rfl

end Announcement

end

section
variable {H P : Type} {pc : PriorityComputer H P}
  {t t' : Tracker H P} {book : Book H P} (M : Multiset (Announcement H P))

lemma blurred_numbered : (blurred M).map Announcement.numbered = M.map Announcement.numbered := by
  rw [blurred, Multiset.map_map]
  exact Multiset.map_congr rfl fun a _ => a.numbered_blur

lemma filter_numbered {p : Announcement H P → Prop} {q : Record H P → Prop} [DecidablePred p]
  [DecidablePred q] (eq : ∀ a, p a ↔ q a.record) : (M.filter p).map Announcement.numbered =
    (M.map Announcement.numbered).filter fun r => q r.2 := by
  rw [Multiset.filter_map]
  exact congrArg _ (Multiset.filter_congr fun a _ => eq a)

lemma map_numbered {f : Announcement H P → Announcement H P} {g : Record H P → Record H P}
  (eq : ∀ a, (f a).numbered = Prod.map id g a.numbered) :
  ((blurred M).map f).map Announcement.numbered =
    (M.map Announcement.numbered).map (Prod.map id g) := by
  rw [← blurred_numbered M, Multiset.map_map, Multiset.map_map]
  exact Multiset.map_congr rfl fun a _ => eq a

variable [LinearOrder H]

lemma purged_numbered : (purged M).map numbered =
    purge (fun r => r.2.txhash) (fun r => r.2.isLive) (M.map numbered) := by
  have lives : ∀ a : Announcement H P, a.numbered.2.isLive = a.isAlive := by
    intro a
    cases state : a.state <;> simp [numbered, record, Announcement.status,
      isAlive, isLive, state]
  exact Eq.symm (purge_map (fun _ => rfl) lives)

variable [DecidableEq P] {M}

/-- The tracker is sound and holds the records of the book. -/
structure Keeps (computer : PriorityComputer H P) (t : Tracker H P) (book : Book H P) : Prop where
  sound : Sound computer t
  enters : Enters (t.anns.map Announcement.numbered) book

lemma Leaves.keeps (hl : Leaves pc t t' M)
  (enters : Enters (M.map numbered) book) : Keeps pc t' book := by
  refine ⟨hl.sound, ?_⟩
  rw [← blurred_numbered, hl.anns]
  exact enters

section
variable (hk : Keeps pc t book)
include hk

lemma Keeps.mem_iff {r : Record H P} : r ∈ book ↔ ∃ a ∈ t.anns, a.record = r := by
  rw [hk.enters.mem_iff]
  simp [numbered]

lemma Keeps.any_iff (p : Record H P → Bool) :
  book.any p = true ↔ ∃ a ∈ t.anns, p a.record = true := by
  rw [any_eq_true]
  constructor
  · rintro ⟨r, hm, hh⟩
    obtain ⟨a, hma, rfl⟩ := hk.mem_iff.mp hm
    exact ⟨a, hma, hh⟩
  · rintro ⟨a, hm, hh⟩
    exact ⟨a.record, hk.mem_iff.mpr ⟨a, hm, rfl⟩, hh⟩

lemma Keeps.setTimePoint (now : ℤ) :
  Keeps pc (t.setTimePoint pc now).1 (Book.purge (book.map (expire now))) := by
  refine (setTimePoint_spec hk.sound now).1.keeps ?_
  rw [Multiset.map_map, Multiset.map_congr rfl fun a _ => a.numbered_delay now, purged_numbered,
    map_numbered _ (numbered_pass now)]
  exact (hk.enters.map _).purge

/-- Every call is one of the book. -/
theorem Keeps.call (c : Call H P) : Keeps pc (t.call pc c) (book.call c) := by
  cases c with
  | receivedInv peer gtxid preferred reqtime =>
    have any := hk.any_iff (isAt peer gtxid.hash)
    simp only [isAt_record] at any
    rcases receivedInv_spec hk.sound peer gtxid preferred reqtime with
      ⟨known, eq⟩ | ⟨unknown, sound, anns⟩
    · rw [Tracker.call, eq, Book.call, if_pos (any.mpr known)]
      exact hk
    rw [Tracker.call, Book.call, if_neg (mt any.mp (by simpa using unknown))]
    refine ⟨sound, ?_⟩
    rw [anns, Multiset.map_cons]
    refine hk.enters.append ?_ _
    intro r hm
    obtain ⟨a, hma, rfl⟩ := Multiset.mem_map.mp hm
    exact hk.sound.wellFormed.sequences a hma
  | requestedTx peer txhash expiry =>
    have any := hk.any_iff fun r => r.isAt peer txhash && r.isCandidate
    simp only [Bool.and_eq_true, isAt_record, isCandidate_record] at any
    rcases requestedTx_spec hk.sound peer txhash expiry with ⟨candidate, leaves⟩ | ⟨none, eq⟩
    · rw [Tracker.call, Book.call, if_pos (any.mpr candidate)]
      refine leaves.keeps ?_
      rw [map_numbered _ (numbered_request peer txhash expiry)]
      exact hk.enters.map _
    · rw [Tracker.call, eq, Book.call, if_neg (mt any.mp (by simpa using none))]
      exact hk
  | receivedResponse peer txhash =>
    refine (receivedResponse_spec hk.sound peer txhash).keeps ?_
    rw [purged_numbered, map_numbered _ (numbered_respond peer txhash)]
    exact (hk.enters.map _).purge
  | forgetTxHash txhash =>
    refine (forgetTxHash_spec hk.sound txhash).keeps ?_
    rw [blurred_numbered, filter_numbered _ (p := fun a => a.txhash ≠ txhash)
      (q := fun r => r.txhash ≠ txhash) fun _ => Iff.rfl]
    exact hk.enters.filter fun r => r.txhash ≠ txhash
  | disconnectedPeer peer =>
    refine (disconnectedPeer_spec hk.sound peer).keeps ?_
    rw [purged_numbered, filter_numbered _ (p := fun a => a.peer ≠ peer) (q := fun r => r.peer ≠ peer)
      fun _ => Iff.rfl, blurred_numbered]
    exact (hk.enters.filter fun r => r.peer ≠ peer).purge
  | getRequestable peer now => exact hk.setTimePoint now

end

lemma Keeps.run (calls : List (Call H P)) (hk : Keeps pc t book) :
  Keeps pc (calls.foldl (Tracker.call pc) t) (calls.foldl Book.call book) := by
  induction calls generalizing t book with
  | nil => exact hk
  | cons c calls ih => exact ih (hk.call c)

lemma Keeps.empty : Keeps pc Tracker.empty [] := by
  have none : (Tracker.empty : Tracker H P).anns = 0 := rfl
  refine ⟨⟨⟨.nil, .nil, .nil, ?_, rfl, ?_, ?_⟩, ?_⟩, [], rfl, .nil, rfl⟩
  · simp [none]
  · simp [none]
  · simp [none]
  · rw [none]
    constructor <;> simp

theorem run_keeps (calls : List (Call H P)) : Keeps pc (Tracker.run pc calls) (Book.run calls) :=
  Keeps.empty.run calls

end

variable {H P : Type} {computer : PriorityComputer H P}
  {t : Tracker H P} {book : Book H P} {a : Announcement H P} {txhash : H} {r : Record H P} {now : ℤ}

/-- Passing and delaying leave no state that the time contradicts. -/
lemma delay_pass_post (now : ℤ) (ann : Announcement H P) :
  if ((ann.pass now).delay now).isWaiting then now < ((ann.pass now).delay now).time
  else ((ann.pass now).delay now).isSelectable → ((ann.pass now).delay now).time ≤ now := by
  have later : (ann.pass now).isWaiting = true → now < (ann.pass now).time := by
    rw [Announcement.pass]
    split_ifs with time hd hr
    · simp [isWaiting]
    · simp [isWaiting]
    · simp [isWaiting, hd, hr]
    · exact fun _ => not_le.mp time
  rw [delay]
  split_ifs with early hw hw
  · exact early.2
  · exact absurd rfl hw
  · exact later hw
  · exact fun hs => not_lt.mp fun time => early ⟨hs, time⟩

/-- With the time set the candidates that may be requested are those that are ready. -/
lemma isEligible_iff (post : t.PostGetRequestableSanityCheck now)
  (hm : a ∈ t.anns) : a.record.isEligible now = true ↔ a.isSelectable = true := by
  have posta := post a hm
  cases state : a.state <;> simp [isWaiting, isSelectable, state] at posta <;>
    simp [isEligible, record, Announcement.status, isSelectable, state, posta]

lemma isOutstanding_iff (post : t.PostGetRequestableSanityCheck now)
  (hm : a ∈ t.anns) : a.record.isOutstanding now = true ↔ a.state = .requested := by
  have posta := post a hm
  cases state : a.state <;> simp [isWaiting, isSelectable, state] at posta <;>
    simp [isOutstanding, record, Announcement.status, state, posta]

lemma expire_eq (now : ℤ) (r : Record H P) :
  (r.expire now).gtxid = r.gtxid ∧ (r.expire now).peer = r.peer := by
  rw [expire]
  split <;> exact ⟨rfl, rfl⟩

variable [LinearOrder H]

lemma mem_expire_iff (live : r.isLive = true) :
  r ∈ Book.purge (book.map (expire now)) ↔ r ∈ book ∧ r.isExpired now = false := by
  constructor
  · intro hm
    obtain ⟨r', hm', rfl⟩ := mem_map.mp (mem_filter.mp hm).1
    by_cases expired : r'.isExpired now = true
    · rw [expire, if_pos expired] at live
      simp [isLive, complete] at live
    · rw [expire, if_neg expired]
      exact ⟨hm', Bool.not_eq_true _ ▸ expired⟩
  · rintro ⟨hm, running⟩
    have same : r.expire now = r := if_neg (by simp [running])
    have entered := mem_map.mpr ⟨r, hm, same⟩
    exact mem_filter.mpr ⟨entered, decide_eq_true ⟨r, entered, rfl, live⟩⟩

/-- The peers of the best candidates. -/
def Tracker.chosen (t : Tracker H P) (txhash : H) : Option P :=
  (t.index.byTxHash.find? fun a => a.txhash = txhash ∧ a.state = .candidateBest).map Announcement.peer

lemma chosen_some {peer : P} (hc : t.chosen txhash = some peer) :
  ∃ a ∈ t.anns, a.address = (peer, txhash) ∧ a.state = .candidateBest := by
  obtain ⟨a, hf, rfl⟩ := Option.map_eq_some_iff.mp hc
  have passes := find?_some hf
  rw [decide_eq_true_eq] at passes
  exact ⟨a, mem_of_find?_eq_some hf, Prod.ext rfl passes.1, passes.2⟩

lemma chosen_none (none : t.chosen txhash = none) :
  ∀ a ∈ t.anns, a.txhash = txhash → a.state ≠ .candidateBest := by
  intro a hm hs best
  have fails := find?_eq_none.mp (Option.map_eq_none_iff.mp none) a hm
  exact fails (decide_eq_true ⟨hs, best⟩)

variable [DecidableEq P]

/-- After the time has been set the states say whether the time of an announcement has come. -/
lemma setTimePoint_post (hs : Sound computer t) (now : ℤ) :
  (t.setTimePoint computer now).1.PostGetRequestableSanityCheck now := by
  have leaves := (setTimePoint_spec hs now).1
  intro ann hm
  have blurredMember : ann.blur ∈ blurred (t.setTimePoint computer now).1.anns :=
    Multiset.mem_map_of_mem _ hm
  rw [leaves.anns] at blurredMember
  obtain ⟨b, hmb, eq⟩ := Multiset.mem_map.mp blurredMember
  obtain ⟨c, -, rfl⟩ := Multiset.mem_map.mp (Multiset.mem_of_le (purged_le _) hmb)
  have post := delay_pass_post now c
  rwa [eq, blur_isWaiting, blur_isSelectable, blur_time] at post

/-- In the order of their sequence numbers the announcements are the records. -/
lemma Keeps.records_eq (hk : Keeps computer t book) : t.records = book := by
  obtain ⟨l, eq, sorted, rfl⟩ := hk.enters
  have perm : ((t.index.byTxHash.insertionSort fun a b => a.sequence ≤ b.sequence).map
    Announcement.numbered).Perm l :=
    ((perm_insertionSort _ _).map _).trans (Multiset.coe_eq_coe.mp eq)
  have inj := inj_on_of_nodup_map (pairwise_map.mpr (sorted.imp fun less => less.ne))
  have sortedAnns : ((t.index.byTxHash.insertionSort fun a b => a.sequence ≤ b.sequence).map
    Announcement.numbered).Pairwise fun a b => a.1 ≤ b.1 :=
    pairwise_map.mpr (pairwise_insertionSort _ _)
  have same := Perm.eq_of_pairwise
    (fun a b hma hmb le ge => inj (perm.mem_iff.mp hma) hmb (le_antisymm le ge))
    sortedAnns (sorted.imp fun less => less.le) perm
  rw [Tracker.records, ← same, map_map]
  rfl

lemma WellFormed.insertionSort_filter (wf : WellFormed computer t) (p : Announcement H P → Bool) :
  (t.index.byTxHash.filter p).insertionSort (fun a b => a.sequence ≤ b.sequence) =
    (t.index.byTxHash.insertionSort fun a b => a.sequence ≤ b.sequence).filter p := by
  have inj := inj_on_of_nodup_map (Multiset.coe_nodup.mp wf.received)
  have perm : ((t.index.byTxHash.filter p).insertionSort fun a b => a.sequence ≤ b.sequence).Perm
    ((t.index.byTxHash.insertionSort fun a b => a.sequence ≤ b.sequence).filter p) :=
    (perm_insertionSort _ _).trans ((perm_insertionSort _ _).symm.filter p)
  refine Perm.eq_of_pairwise (fun a b memberA memberB le ge => ?_)
    (pairwise_insertionSort _ _) ((pairwise_insertionSort _ _).filter p) perm
  have memberA := (mem_filter.mp (perm.mem_iff.mp memberA)).1
  have memberB := (mem_filter.mp memberB).1
  rw [mem_insertionSort] at memberA memberB
  exact inj memberA memberB (le_antisymm le ge)

lemma Sound.chosen_iff (hs : Sound computer t) (hm : a ∈ t.anns) :
  t.chosen a.txhash = some a.peer ↔ a.state = .candidateBest := by
  constructor
  · intro hc
    obtain ⟨b, hmb, address, best⟩ := chosen_some hc
    have same : b = a := Multiset.inj_on_of_nodup_map hs.wellFormed.unique b hmb a hm address
    exact same ▸ best
  intro best
  cases eq : t.chosen a.txhash with
  | none => exact absurd best (chosen_none eq a hm rfl)
  | some peer =>
    obtain ⟨b, hmb, address, bestB⟩ := chosen_some eq
    have same := hs.valid.one b hmb a hm (congrArg Prod.snd address)
      ((isSelected_iff b).mpr (.inl bestB))
      ((isSelected_iff a).mpr (.inl best))
    rw [← same]
    exact congrArg some (congrArg Prod.fst address).symm

/-- What may be requested and what is outstanding is in the tracker when the time is set. -/
lemma Keeps.mem_moved_iff (hk : Keeps computer t book)
  (counts : r.isEligible now = true ∨ r.isOutstanding now = true) :
  r ∈ book ↔ ∃ a ∈ (t.setTimePoint computer now).1.anns, a.record = r := by
  have live : r.isLive = true ∧ r.isExpired now = false := by
    cases status : r.status <;>
      simp [isEligible, isOutstanding, isLive, Record.isExpired, status] at counts ⊢
    exact counts
  rw [← (hk.setTimePoint now).mem_iff, mem_expire_iff live.1, and_iff_left live.2]

lemma Keeps.chooses (hk : Keeps computer t book) (now : ℤ) :
  book.Chooses computer now (t.setTimePoint computer now).1.chosen := by
  have sound := (hk.setTimePoint now).sound
  have post := setTimePoint_post hk.sound now
  refine ⟨fun txhash peer hc => ?_, fun txhash none => ?_⟩
  · obtain ⟨a, hm, address, best⟩ := chosen_some hc
    have isHash := congrArg Prod.snd address
    have selected := (isSelected_iff a).mpr (.inl best)
    have eligible := (isEligible_iff post hm).mpr (by simp [isSelectable, best])
    refine ⟨fun r memberR sameR => ?_, a.record, ?_, ?_, ?_, ?_⟩
    · by_contra outstanding
      rw [Bool.not_eq_false] at outstanding
      obtain ⟨b, hmb, rfl⟩ := (hk.mem_moved_iff (.inr outstanding)).mp memberR
      have requested := (isOutstanding_iff post hmb).mp outstanding
      have same := sound.valid.one b hmb a hm (sameR.trans isHash.symm)
        ((isSelected_iff b).mpr (.inr requested)) selected
      rw [same, best] at requested
      cases requested
    · exact (hk.mem_moved_iff (.inl eligible)).mpr ⟨a, hm, rfl⟩
    · exact (isAt_record peer txhash a).mpr address
    · exact eligible
    · intro s memberS sameS eligibleS
      obtain ⟨b, hmb, rfl⟩ := (hk.mem_moved_iff (.inl eligibleS)).mp memberS
      have same := sameS.trans isHash.symm
      have selectable := (isEligible_iff post hmb).mp eligibleS
      rcases of_decide_eq_true selectable with ready | bestB
      · exact sound.valid.best b hmb a hm same ready best
      · rw [sound.valid.one b hmb a hm same ((isSelected_iff b).mpr (.inl bestB)) selected]
  · by_cases he : ∃ r ∈ book, r.txhash = txhash ∧ r.isEligible now = true
    · obtain ⟨r, memberR, sameR, eligible⟩ := he
      obtain ⟨a, hm, rfl⟩ := (hk.mem_moved_iff (.inl eligible)).mp memberR
      have ready : a.state = .candidateReady :=
        (of_decide_eq_true ((isEligible_iff post hm).mp eligible)).resolve_right
          (chosen_none none a hm sameR)
      obtain ⟨b, hmb, sameB, selected⟩ := sound.valid.ready a hm ready
      have requested : b.state = .requested := ((isSelected_iff b).mp selected).resolve_left
        (chosen_none none b hmb (sameB.trans sameR))
      have outstanding := (isOutstanding_iff post hmb).mpr requested
      exact .inl ⟨b.record, (hk.mem_moved_iff (.inr outstanding)).mpr ⟨b, hmb, rfl⟩,
        sameB.trans sameR, outstanding⟩
    · push Not at he
      exact .inr fun r hm same => Bool.eq_false_iff.mpr (he r hm same)

lemma requestable_expire {chosen : H → Option P}
  (hch : book.Chooses computer now chosen) (peer : P) :
  (Book.purge (book.map (expire now))).requestable chosen peer = book.requestable chosen peer := by
  have stays : ∀ r ∈ book, chosen r.txhash = some peer →
    Lives Record.txhash isLive (book.map (expire now) : Multiset (Record H P)) r.txhash := by
    intro r _ hc
    obtain ⟨-, s, hm, at_, eligible, -⟩ := hch.best r.txhash peer hc
    have live : s.isLive = true ∧ s.isExpired now = false := by
      cases status : s.status <;> simp [isEligible, isLive, Record.isExpired, status] at eligible ⊢
    have same : s.expire now = s := if_neg (by simp [live.2])
    exact ⟨s, mem_map.mpr ⟨s, hm, same⟩, (of_decide_eq_true at_).2, live.1⟩
  rw [Book.requestable, Book.requestable, Book.purge, purgeList, filter_filter, filter_map, map_map]
  have gtxids : Record.gtxid ∘ expire now = (Record.gtxid : Record H P → GenTxid H) :=
    funext fun r => (expire_eq now r).1
  rw [gtxids]
  congr 1
  refine filter_congr fun r hm => ?_
  have hash : (r.expire now).txhash = r.txhash := congrArg GenTxid.hash (expire_eq now r).1
  rw [Function.comp_apply, hash, (expire_eq now r).2]
  by_cases hc : chosen r.txhash = some peer
  · rw [decide_eq_true (stays r hm hc), Bool.and_true]
  · simp [hc]

lemma Keeps.requestable (hk : Keeps computer t book) (peer : P) (now : ℤ) :
  (t.getRequestable computer peer now).2.1 =
    book.requestable (t.setTimePoint computer now).1.chosen peer := by
  have keepsMoved := hk.setTimePoint now
  rw [← requestable_expire (hk.chooses now), ← keepsMoved.records_eq]
  change List.map _ (List.insertionSort _ _) = _
  rw [keepsMoved.sound.wellFormed.insertionSort_filter, Book.requestable, Tracker.records,
    filter_map, map_map]
  change _ = List.map Announcement.gtxid _
  congr 1
  refine filter_congr fun a hm => ?_
  rw [mem_insertionSort] at hm
  have isChosen := keepsMoved.sound.chosen_iff hm
  refine decide_eq_decide.mpr (and_congr_right fun isPeer => ?_)
  rw [← isPeer, ← isChosen]
  rfl

lemma Keeps.expired (hk : Keeps computer t book) (now : ℤ) :
  (t.setTimePoint computer now).2.Perm (book.expired now) := by
  obtain ⟨l, eq, -, rfl⟩ := hk.enters
  have records : ((l.map Prod.snd : List (Record H P)) : Multiset (Record H P)) =
    (blurred t.anns).map Announcement.record := by
    rw [← Multiset.map_coe, ← eq, ← blurred_numbered, Multiset.map_map]
    rfl
  refine Multiset.coe_eq_coe.mp ((setTimePoint_spec hk.sound now).2.trans ?_)
  have kept : ((l.map Prod.snd).filter (Record.isExpired now) : Multiset (Record H P)) =
    ((blurred t.anns).map Announcement.record).filter fun r => r.isExpired now = true := by
    rw [← records, Multiset.filter_coe]
    simp
  rw [Book.expired, ← Multiset.map_coe, kept, Multiset.filter_map, Multiset.map_map, expiredRequests]
  refine congrArg _ (Multiset.filter_congr fun a _ => ?_)
  rw [Function.comp_apply, isExpired_record]

variable (computer) in
/-- After any calls the sanity checks hold and the announcements are those of the book. At any time,
also an earlier one, the requests that have expired are those of the book, and every peer is asked
for the transactions whose best candidate is its own, in the order of receipt. -/
theorem tracker_follows_book (calls : List (Call H P)) (now : ℤ) :
  let t := Tracker.run computer calls
  let book := Book.run calls
  t.records = book ∧ t.SanityCheck computer ∧
  (∀ txhash, t.index.byTxHash.countP
    (fun ann => ann.txhash = txhash ∧ ann.state = .requested) ≤ 1) ∧
  (∀ ann ∈ t.index.byTxHash, ∃ other ∈ t.index.byTxHash,
    other.txhash = ann.txhash ∧ other.state ≠ .completed) ∧
  ∃ chosen, book.Chooses computer now chosen ∧ ∀ peer,
    (t.getRequestable computer peer now).1.PostGetRequestableSanityCheck now ∧
    (t.getRequestable computer peer now).2.1 = book.requestable chosen peer ∧
    (t.getRequestable computer peer now).2.2.Perm (book.expired now) := by
  intro t book
  have keeps : Keeps computer t book := run_keeps calls
  refine ⟨keeps.records_eq, keeps.sound.sanityCheck, fun txhash => ?_, keeps.sound.valid.alive,
    _, keeps.chooses now, fun peer => ⟨setTimePoint_post keeps.sound now,
      keeps.requestable peer now, keeps.expired now⟩⟩
  refine countP_le_one keeps.sound.wellFormed.nodup fun a hma b hmb requestedA requestedB => ?_
  obtain ⟨sameA, requestedA⟩ := of_decide_eq_true requestedA
  obtain ⟨sameB, requestedB⟩ := of_decide_eq_true requestedB
  exact keeps.sound.valid.one a hma b hmb (sameA.trans sameB.symm)
    ((isSelected_iff a).mpr (.inr requestedA))
    ((isSelected_iff b).mpr (.inr requestedB))

end TxRequest
