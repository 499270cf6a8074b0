import Andaluzcoin.HeadersSync

/-!
# Safety of headers presync

The calls of a run are recorded in a log: the headers taken in PRESYNC, the bits kept of
them, the headers accepted in REDOWNLOAD and those released. An invariant relates the log
to the state: the released headers and the restored buffer are the accepted chain, and the
queue holds the bits of the PRESYNC headers beyond it.
-/

namespace HeadersSyncSafety

open LinkedChain Pow HeadersSync List Sync CompressedHeader Bool

section

/-- One call of `ProcessNextHeaders`. -/
structure Call where
  receivedHeaders : List CBlockHeader
  fullHeadersMessage : Bool

/-- A header that was returned, and how many headers had been accepted in REDOWNLOAD then. -/
structure Release where
  header : CBlockHeader
  verified : ℕ
  deriving DecidableEq

structure Log where
  presynced : List CBlockHeader
  stored : List (ℕ × Bool)
  accepted : List CBlockHeader
  releases : List Release
  deriving DecidableEq

def Log.empty : Log := ⟨[], [], [], []⟩

def Log.released (log : Log) : List CBlockHeader := log.releases.map Release.header

variable (sync : Sync)

/-- The headers that a call takes in PRESYNC. -/
def presyncedBy (s : HeadersSyncState) (headers : List CBlockHeader) : List CBlockHeader :=
  if s.downloadState = .presync ∧ sync.connects s headers then
    taken sync.validateAndProcessSingleHeader s headers
  else []

/-- The bits that go to the end of the queue, each with the height of the header that is
processed, when the headers follow one at the given height. -/
def storedFrom (height : ℕ) (s : HeadersSyncState) : List CBlockHeader → List (ℕ × Bool)
  | [] => []
  | header :: rest =>
    let next := sync.validateAndProcessSingleHeader s header
    if next.1 then
      (next.2.headerCommitments.drop s.headerCommitments.length).map (height + 1, ·)
        ++ storedFrom (height + 1) next.2 rest
    else []

def storedBy (height : ℕ) (s : HeadersSyncState) (headers : List CBlockHeader) : List (ℕ × Bool) :=
  if s.downloadState = .presync ∧ sync.connects s headers then storedFrom sync height s headers
  else []

/-- The headers that a call accepts in REDOWNLOAD. -/
def acceptedBy (s : HeadersSyncState) (headers : List CBlockHeader) : List CBlockHeader :=
  if s.downloadState = .redownload then taken sync.validateAndStoreRedownloadedHeader s headers
  else []

def Log.add (log : Log) (s : HeadersSyncState) (call : Call) : Log :=
  let accepted := log.accepted ++ acceptedBy sync s call.receivedHeaders
  let result := (sync.processNextHeaders s call.receivedHeaders call.fullHeadersMessage).1
  { presynced := log.presynced ++ presyncedBy sync s call.receivedHeaders
    stored := log.stored
      ++ storedBy sync (sync.chainStart.nHeight + log.presynced.length) s call.receivedHeaders
    accepted := accepted
    releases := log.releases ++ result.powValidatedHeaders.map (⟨·, accepted.length⟩) }

def step (at_ : HeadersSyncState × Log) (call : Call) : HeadersSyncState × Log :=
  ((sync.processNextHeaders at_.1 call.receivedHeaders call.fullHeadersMessage).2,
    Log.add sync at_.2 at_.1 call)

/-- The state and the log after some calls. -/
def run (calls : List Call) : HeadersSyncState × Log :=
  calls.foldl (step sync) (sync.initial, Log.empty)

end

section
variable (sync : Sync) {header : CBlockHeader} {headers more : List CBlockHeader}

/-- The work of the chain that ends with the given headers. -/
def chainWork (headers : List CBlockHeader) : ArithUint256 :=
  headers.foldl (fun work header => work + getBlockProof header) sync.chainStart.nChainWork

/-- The work reached what is required after one of the headers. -/
def ReachedWork (headers : List CBlockHeader) : Prop :=
  ∃ part, part ≠ [] ∧ part <+: headers ∧ sync.minimumRequiredWork ≤ chainWork sync part

instance (headers : List CBlockHeader) : Decidable (ReachedWork sync headers) :=
  decidable_of_iff
    (∃ part ∈ headers.inits, part ≠ [] ∧ sync.minimumRequiredWork ≤ chainWork sync part) <| by
    constructor
    · rintro ⟨part, initial, nonempty, enough⟩
      exact ⟨part, nonempty, (mem_inits part headers).mp initial, enough⟩
    · rintro ⟨part, nonempty, initial, enough⟩
      exact ⟨part, (mem_inits part headers).mpr initial, nonempty, enough⟩

/-- The bits to be kept of headers that follow one at the given height. -/
def commitments (height : ℕ) : List CBlockHeader → List (ℕ × Bool)
  | [] => []
  | header :: rest =>
    (if sync.commitsAt (height + 1 : ℕ) then [(height + 1, sync.commitment header)] else [])
      ++ commitments (height + 1) rest

/-- Each header may follow the one before it, by the difficulty rule at its height. -/
def Permitted (headers : List CBlockHeader) : Prop :=
  ∀ i previous header, (sync.chainStart.header :: headers)[i]? = some previous →
    headers[i]? = some header →
    permittedDifficultyTransition sync.consensusParams (sync.chainStart.nHeight + i + 1 : ℕ)
      previous.nBits header.nBits = true

/-- The heights of the PRESYNC headers are numbers of type `int`. -/
def IntHeights (presynced : List CBlockHeader) : Prop :=
  sync.chainStart.nHeight + presynced.length < 2 ^ 31

lemma reachedWork_append : ReachedWork sync (headers ++ [header]) ↔ ReachedWork sync headers ∨
    sync.minimumRequiredWork ≤ chainWork sync (headers ++ [header]) := by
  constructor
  · rintro ⟨part, nonempty, initial, he⟩
    rcases prefix_concat_iff.mp initial with rfl | initial
    · exact .inr he
    · exact .inl ⟨part, nonempty, initial, he⟩
  · rintro (⟨part, nonempty, initial, he⟩ | he)
    · exact ⟨part, nonempty, initial.trans (prefix_append _ _), he⟩
    · exact ⟨_, by simp, prefix_rfl, he⟩

lemma reachedWork_mono (initial : headers <+: more)
  (hr : ReachedWork sync headers) : ReachedWork sync more := by
  obtain ⟨part, nonempty, first, he⟩ := hr
  exact ⟨part, nonempty, first.trans initial, he⟩

lemma not_reachedWork_nil : ¬ ReachedWork sync [] := by
  rintro ⟨part, nonempty, initial, -⟩
  exact nonempty (prefix_nil.mp initial)

lemma chainWork_append (headers : List CBlockHeader) (header : CBlockHeader) :
  chainWork sync (headers ++ [header]) = chainWork sync headers + getBlockProof header := by
  simp [chainWork]

lemma commitments_append (height : ℕ) (headers more : List CBlockHeader) :
  commitments sync height (headers ++ more)
    = commitments sync height headers ++ commitments sync (height + headers.length) more := by
  induction headers generalizing height with
  | nil => simp [commitments]
  | cons header rest ih =>
    have shift : height + 1 + rest.length = height + (rest.length + 1) := by omega
    simp [commitments, ih, shift]

/-- The bit of a header at a commitment height is found under that height. -/
lemma lookup_commitments {height i : ℕ}
  (hp : headers[i]? = some header) (commits : sync.commitsAt (height + i + 1 : ℕ)) :
  (commitments sync height headers).lookup (height + i + 1) = some (sync.commitment header) := by
  induction headers generalizing height i with
  | nil => simp at hp
  | cons first rest ih =>
    cases i with
    | zero =>
      obtain rfl : first = header := by simpa using hp
      rw [commitments, if_pos (show sync.commitsAt (height + 1 : ℕ) from commits)]
      simp
    | succ i =>
      have shift : height + (i + 1) + 1 = height + 1 + i + 1 := by omega
      rw [shift] at commits ⊢
      have later := ih (by simpa using hp) commits
      have ne : (height + 1 + i + 1 == height + 1) = false := by
        simp only [beq_eq_false_iff_ne]
        omega
      unfold commitments
      split
      · simpa [lookup, ne] using later
      · simpa using later

lemma getElem?_concat_cases {i : ℕ} {h : CBlockHeader} (hi : (headers ++ [header])[i]? = some h) :
  (i < headers.length ∧ headers[i]? = some h) ∨ (i = headers.length ∧ header = h) := by
  rcases lt_trichotomy i headers.length with lt | rfl | gt
  · rw [getElem?_append_left lt] at hi
    exact .inl ⟨lt, hi⟩
  · rw [getElem?_concat_length] at hi
    exact .inr ⟨rfl, Option.some.inj hi⟩
  · rw [getElem?_eq_none (by simpa using Nat.succ_le_of_lt gt)] at hi
    cases hi

lemma permitted_append (hp : Permitted sync headers)
  (next : ∀ previous, (sync.chainStart.header :: headers)[headers.length]? = some previous →
    permittedDifficultyTransition sync.consensusParams
      (sync.chainStart.nHeight + headers.length + 1 : ℕ) previous.nBits header.nBits = true) :
  Permitted sync (headers ++ [header]) := by
  intro i previous current hpr hc
  rcases getElem?_concat_cases hc with ⟨hi, hc⟩ | ⟨rfl, rfl⟩
  · rw [← cons_append, getElem?_append_left (by simpa using Nat.lt_succ_of_lt hi)] at hpr
    exact hp i previous current hpr hc
  · rw [← cons_append, getElem?_append_left (by simp)] at hpr
    exact next previous hpr

lemma permitted_of_prefix (hp : Permitted sync more)
  (initial : headers <+: more) : Permitted sync headers := by
  obtain ⟨rest, rfl⟩ := initial
  intro i previous header hpr hh
  have inside : i < headers.length := (List.getElem?_eq_some_iff.mp hh).1
  refine hp i previous header ?_ ?_
  · rwa [← cons_append, getElem?_append_left (by simpa using Nat.lt_succ_of_lt inside)]
  · rwa [getElem?_append_left inside]

end

section
variable {sync : Sync} {s : HeadersSyncState} {header : CBlockHeader}

/-- A step that is not refused goes on. -/
lemma eq_of_not_refused {refuses : Prop} [Decidable refuses] {next : Bool × HeadersSyncState}
  (ok : (if refuses then (false, s) else next).1 = true) :
  ¬ refuses ∧ (if refuses then (false, s) else next) = next := by
  split at ok
  · cases ok
  · next hr => exact ⟨hr, if_neg hr⟩

lemma validateAndProcessSingleHeader_taken
  (ok : (sync.validateAndProcessSingleHeader s header).1 = true) :
  s.downloadState = .presync ∧ (sync.validateAndProcessSingleHeader s header).2 = { s with
      headerCommitments := if sync.commitsAt ((s.currentHeight + 1).bmod (2 ^ 32))
        then s.headerCommitments ++ [sync.commitment header] else s.headerCommitments
      currentChainWork := s.currentChainWork + getBlockProof header
      lastHeaderReceived := header
      currentHeight := (s.currentHeight + 1).bmod (2 ^ 32) } := by
  simp only [validateAndProcessSingleHeader] at ok ⊢
  generalize (if sync.commitsAt ((s.currentHeight + 1).bmod (2 ^ 32))
    then s.headerCommitments ++ [sync.commitment header] else s.headerCommitments) = queue at ok ⊢
  obtain ⟨hpr, next⟩ := eq_of_not_refused ok
  rw [next] at ok ⊢
  obtain ⟨-, next⟩ := eq_of_not_refused ok
  rw [next] at ok ⊢
  obtain ⟨-, next⟩ := eq_of_not_refused ok
  rw [next]
  exact ⟨by simpa using hpr, rfl⟩

/-- The state in PRESYNC after the given headers. -/
structure Presync (sync : Sync) (s : HeadersSyncState) (presynced : List CBlockHeader) : Prop where
  state : s.downloadState = .presync
  height : IntHeights sync presynced →
    s.currentHeight = (sync.chainStart.nHeight + presynced.length : ℕ)
  queue : IntHeights sync presynced → s.headerCommitments
    = (commitments sync sync.chainStart.nHeight presynced).map Prod.snd
  waiting : s.processAllRemainingHeaders = false

lemma int_height {n : ℕ} (hs : n + 1 < 2 ^ 31) : ((n : Int) + 1).bmod (2 ^ 32) = (n + 1 : ℕ) := by
  rw [Int.bmod_eq_of_le] <;> omega

lemma Presync.taken {presynced : List CBlockHeader} (hp : Presync sync s presynced)
  (ok : (sync.validateAndProcessSingleHeader s header).1 = true) :
  Presync sync (sync.validateAndProcessSingleHeader s header).2 (presynced ++ [header]) := by
  obtain ⟨-, next⟩ := validateAndProcessSingleHeader_taken ok
  have heights : IntHeights sync (presynced ++ [header]) → IntHeights sync presynced ∧
    (s.currentHeight + 1).bmod (2 ^ 32)
      = (sync.chainStart.nHeight + presynced.length + 1 : ℕ) := by
    intro hs
    simp only [IntHeights, length_append, length_singleton] at hs
    have before : IntHeights sync presynced := by
      unfold IntHeights
      omega
    rw [hp.height before]
    exact ⟨before, int_height (by omega)⟩
  rw [next]
  refine { hp with height := fun hs => ?_, queue := fun hs => ?_ }
  · rw [length_append]
    exact (heights hs).2
  obtain ⟨before, isHeight⟩ := heights hs
  rw [commitments_append, map_append, ← hp.queue before]
  simp only [commitments, isHeight]
  split
  · simp
  · simp

/-- The bits that are kept are those to be kept, as long as the heights are `int`s. -/
lemma storedFrom_eq {height : ℕ} {headers : List CBlockHeader} (hh : s.currentHeight = height)
  (hs : height + (taken sync.validateAndProcessSingleHeader s headers).length < 2 ^ 31) :
  storedFrom sync height s headers
    = commitments sync height (taken sync.validateAndProcessSingleHeader s headers) := by
  induction headers generalizing s height with
  | nil => rfl
  | cons header rest ih =>
    cases ok : (sync.validateAndProcessSingleHeader s header).1 with
    | false => simp [storedFrom, taken, ok, commitments]
    | true =>
      obtain ⟨-, next⟩ := validateAndProcessSingleHeader_taken ok
      simp only [taken, ok, if_true, length_cons] at hs
      have nextHeight : (s.currentHeight + 1).bmod (2 ^ 32) = (height + 1 : ℕ) := by
        rw [hh]
        exact int_height (by omega)
      have later := ih (s := (sync.validateAndProcessSingleHeader s header).2)
        (by rw [next]; exact nextHeight) (by omega)
      simp only [storedFrom, taken, ok, if_true, later, commitments]
      congr 1
      rw [next]
      rw [nextHeight]
      split
      · simp
      · simp

end

section
variable {sync : Sync} {s : HeadersSyncState} {header : CBlockHeader}

/-- What a header is checked for that is accepted in REDOWNLOAD and leaves the given queue. -/
structure Accepts (sync : Sync) (s : HeadersSyncState) (header : CBlockHeader)
  (queue : List Bool) : Prop where
  links : header.hashPrevBlock = s.redownloadBufferLastHash
  permitted : permittedDifficultyTransition sync.consensusParams
    (s.redownloadBufferLastHeight + 1) (sync.previousNBits s) header.nBits = true
  checked : (sync.trackWork s header).processAllRemainingHeaders = false →
    sync.commitsAt (s.redownloadBufferLastHeight + 1) = true →
    s.headerCommitments = sync.commitment header :: queue
  unchecked : sync.commitsAt (s.redownloadBufferLastHeight + 1) = false →
    queue = s.headerCommitments

lemma validateAndStoreRedownloadedHeader_accepts
  (ok : (sync.validateAndStoreRedownloadedHeader s header).1 = true) :
  ∃ queue, Accepts sync s header queue ∧ (sync.validateAndStoreRedownloadedHeader s header).2
    = sync.storeHeader { sync.trackWork s header with headerCommitments := queue } header := by
  simp only [validateAndStoreRedownloadedHeader] at ok ⊢
  obtain ⟨-, next⟩ := eq_of_not_refused ok
  rw [next] at ok ⊢
  obtain ⟨hl, next⟩ := eq_of_not_refused ok
  rw [next] at ok ⊢
  obtain ⟨hp, next⟩ := eq_of_not_refused ok
  rw [next] at ok ⊢
  simp only [ne_eq, Decidable.not_not, not_eq_true, not_eq_false'] at hl hp
  split at ok
  · next checks =>
    rw [if_pos checks]
    simp only [and_eq_true, not_eq_true'] at checks
    split at ok
    · cases ok
    · next expected rest queue =>
      obtain ⟨matches_, next⟩ := eq_of_not_refused ok
      rw [next]
      refine ⟨rest, ⟨hl, hp, fun _ _ => ?_, fun hc => ?_⟩, rfl⟩
      · rw [Decidable.not_not.mp matches_]
        exact queue
      · rw [checks.2] at hc
        cases hc
  · next skips =>
    rw [if_neg skips]
    refine ⟨s.headerCommitments, ⟨hl, hp, fun waiting hc => ?_, fun _ => rfl⟩, rfl⟩
    exact absurd (by simp [hc, waiting]) skips

/-- What has been checked of the accepted headers. -/
structure Checked (sync : Sync) (presynced accepted : List CBlockHeader) : Prop where
  linked : Linked sync.getHash CBlockHeader.hashPrevBlock (sync.getHash sync.chainStart.header)
    accepted
  permitted : Permitted sync accepted
  matched : IntHeights sync presynced → ∀ i header, accepted[i]? = some header →
    sync.commitsAt (sync.chainStart.nHeight + i + 1 : ℕ) →
    ¬ ReachedWork sync (accepted.take (i + 1)) →
    ∃ earlier, presynced[i]? = some earlier ∧ sync.commitment earlier = sync.commitment header

/-- The state in REDOWNLOAD after the given headers were accepted and released. -/
structure Redownload (sync : Sync) (s : HeadersSyncState)
  (presynced released accepted : List CBlockHeader) : Prop where
  state : s.downloadState = .redownload
  buffer : released ++ restore sync.getHash getFullHeader
    s.redownloadBufferFirstPrevHash s.redownloadedHeaders = accepted
  firstPrevHash : s.redownloadBufferFirstPrevHash
    = tip sync.getHash (sync.getHash sync.chainStart.header) released
  lastHash : s.redownloadBufferLastHash
    = tip sync.getHash (sync.getHash sync.chainStart.header) accepted
  lastHeight : s.redownloadBufferLastHeight = (sync.chainStart.nHeight + accepted.length : ℕ)
  started : s.redownloadedHeaders = [] → accepted = []
  work : s.redownloadChainWork = chainWork sync accepted
  latch : s.processAllRemainingHeaders = true ↔ ReachedWork sync accepted
  queue : IntHeights sync presynced → s.processAllRemainingHeaders = false →
    s.headerCommitments = (commitments sync (sync.chainStart.nHeight + accepted.length)
      (presynced.drop accepted.length)).map Prod.snd

variable {presynced released acc : List CBlockHeader}

lemma Redownload.previousNBits_eq (hr : Redownload sync s presynced released acc)
  {previous : CBlockHeader} (hp : (sync.chainStart.header :: acc)[acc.length]? = some previous) :
  sync.previousNBits s = previous.nBits := by
  unfold previousNBits
  have buffer := hr.buffer
  rcases eq_nil_or_concat s.redownloadedHeaders with none_ | ⟨bare, back, isBack⟩
  · have empty := hr.started none_
    subst empty
    rw [none_]
    simp only [length_nil, getElem?_cons_zero, Option.some.injEq] at hp
    simp [hp]
  rw [isBack] at buffer ⊢
  rw [concat_eq_append, restore_append, ← append_assoc] at buffer
  simp only [restore] at buffer
  have last : ∀ (front : List CBlockHeader) (a : CBlockHeader),
    (sync.chainStart.header :: (front ++ [a]))[(front ++ [a]).length]? = some a := by
    intro front a
    simp
  rw [← buffer, last] at hp
  rw [← Option.some.inj hp]
  simp [getFullHeader]

/-- An accepted header keeps what was checked and the state in step with it. -/
lemma Redownload.accept {queue : List Bool} (hch : Checked sync presynced acc)
  (hr : Redownload sync s presynced released acc) (ha : Accepts sync s header queue) :
  Checked sync presynced (acc ++ [header]) ∧ Redownload sync
    (sync.storeHeader { sync.trackWork s header with headerCommitments := queue } header)
    presynced released (acc ++ [header]) := by
  have links := ha.links
  rw [hr.lastHash] at links
  have isHeight : s.redownloadBufferLastHeight + 1
    = (sync.chainStart.nHeight + acc.length + 1 : ℕ) := by
    rw [hr.lastHeight]
    rfl
  have work : (sync.trackWork s header).redownloadChainWork = chainWork sync (acc ++ [header]) := by
    rw [chainWork_append, ← hr.work]
    rfl
  have latch : (sync.trackWork s header).processAllRemainingHeaders = true
    ↔ ReachedWork sync (acc ++ [header]) := by
    rw [reachedWork_append, ← hr.latch, ← work]
    simp [trackWork]
  have matching : IntHeights sync presynced →
    (sync.trackWork s header).processAllRemainingHeaders = false →
    (sync.commitsAt (sync.chainStart.nHeight + acc.length + 1 : ℕ) = true →
      ∃ he, presynced[acc.length]? = some he ∧ sync.commitment he = sync.commitment header) ∧
    queue = (commitments sync (sync.chainStart.nHeight + acc.length + 1)
      (presynced.drop (acc.length + 1))).map Prod.snd := by
    intro hs hw
    have before := hr.queue hs (or_eq_false_iff.mp hw).1
    have checks := ha.checked hw
    have skips := ha.unchecked
    rw [isHeight] at checks skips
    cases isNext : presynced[acc.length]? with
    | none =>
      have short := getElem?_eq_none_iff.mp isNext
      rw [drop_eq_nil_of_le short] at before
      rw [drop_eq_nil_of_le (by omega)]
      cases hc : sync.commitsAt (sync.chainStart.nHeight + acc.length + 1 : ℕ) with
      | true =>
        have impossible := checks hc
        rw [before] at impossible
        cases impossible
      | false =>
        rw [skips hc, before]
        exact ⟨fun h => absurd h (by decide), rfl⟩
    | some he =>
      obtain ⟨hi, rfl⟩ := List.getElem?_eq_some_iff.mp isNext
      rw [drop_eq_getElem_cons hi, commitments] at before
      cases hc : sync.commitsAt (sync.chainStart.nHeight + acc.length + 1 : ℕ) with
      | true =>
        rw [checks hc, if_pos hc] at before
        obtain ⟨hsa, rest⟩ := cons.inj before
        exact ⟨fun _ => ⟨_, rfl, hsa.symm⟩, rest⟩
      | false =>
        rw [if_neg (ne_true_of_eq_false hc)] at before
        rw [skips hc, before]
        exact ⟨fun h => absurd h (by decide), rfl⟩
  constructor
  · constructor
    · rw [linked_append]
      exact ⟨hch.linked, links, trivial⟩
    · refine permitted_append sync hch.permitted fun previous hp => ?_
      rw [← hr.previousNBits_eq hp, ← isHeight]
      exact ha.permitted
    · intro hs i current hcu hc hu
      rcases getElem?_concat_cases hcu with ⟨hi, hcu⟩ | ⟨rfl, rfl⟩
      · rw [take_append_of_le_length (by omega)] at hu
        exact hch.matched hs i current hcu hc hu
      · rw [take_of_length_le (by simp), ← latch, not_eq_true] at hu
        exact (matching hs hu).1 hc
  · refine { hr with
      buffer := ?_, lastHash := ?_, lastHeight := ?_, started := ?_, work, latch, queue := ?_ }
    · have before : tip sync.getHash s.redownloadBufferFirstPrevHash
          (restore sync.getHash getFullHeader s.redownloadBufferFirstPrevHash
            s.redownloadedHeaders) = header.hashPrevBlock := by
        rw [links, ← hr.buffer, tip_append, ← hr.firstPrevHash]
      rw [storeHeader, restore_append, ← append_assoc]
      dsimp only [trackWork]
      rw [hr.buffer, before]
      rfl
    · rw [tip_append]
      rfl
    · rw [length_append]
      exact isHeight
    · intro empty
      simp [storeHeader] at empty
    · intro hs hw
      rw [length_append]
      exact (matching hs hw).2

end

section
variable {sync : Sync} {s : HeadersSyncState}

/-- The buffer is what is taken out, followed by what is left: everything or nothing but the
last so many headers. -/
lemma popHeaders_spec (sync : Sync) (all : Bool) (firstPrevHash : BitVec 256)
  (buffer : List CompressedHeader) : let popped := sync.popHeaders all firstPrevHash buffer
  restore sync.getHash getFullHeader firstPrevHash buffer
      = popped.1 ++ restore sync.getHash getFullHeader popped.2.2 popped.2.1 ∧
    popped.2.2 = tip sync.getHash firstPrevHash popped.1 ∧
    popped.2.1.length
      = if all then 0 else min buffer.length sync.params.redownloadBufferSize := by
  induction buffer generalizing firstPrevHash with
  | nil => cases all <;> simp [popHeaders, restore]
  | cons front rest ih =>
    obtain ⟨restored, hash, left⟩ := ih (sync.getHash (front.getFullHeader firstPrevHash))
    cases all with
    | true =>
      simp only [popHeaders, Bool.or_true, if_true] at restored hash left ⊢
      exact ⟨by simp [restore, restored], by simp [hash], left⟩
    | false =>
      by_cases full : rest.length + 1 > sync.params.redownloadBufferSize
      · simp only [popHeaders, full, decide_true, Bool.true_or, if_true, false_eq_true, if_false]
          at restored hash left ⊢
        refine ⟨by simp [restore, restored], by simp [hash], ?_⟩
        rw [left, length_cons]
        omega
      · simp only [popHeaders, full, decide_false, Bool.or_false, false_eq_true, if_false]
        refine ⟨by simp, by simp, ?_⟩
        rw [length_cons]
        omega

variable {presynced released acc : List CBlockHeader}

/-- What a release returns continues the released headers, and leaves the state in step unless
all was released. -/
lemma Redownload.release (size : 1 ≤ sync.params.redownloadBufferSize)
  (hr : Redownload sync s presynced released acc) :
  let popped := sync.popHeadersReadyForAcceptance s
  released ++ popped.1 <+: acc ∧ (popped.1 ≠ [] → ReachedWork sync acc ∨
      (released ++ popped.1).length + sync.params.redownloadBufferSize = acc.length) ∧
    ((popped.2.redownloadedHeaders.isEmpty && popped.2.processAllRemainingHeaders) = false →
      Redownload sync popped.2 presynced (released ++ popped.1) acc) := by
  obtain ⟨restored, hash, left⟩ := popHeaders_spec sync s.processAllRemainingHeaders
    s.redownloadBufferFirstPrevHash s.redownloadedHeaders
  simp only [popHeadersReadyForAcceptance, hr.state, ne_eq, not_true_eq_false, if_false]
  generalize sync.popHeaders s.processAllRemainingHeaders s.redownloadBufferFirstPrevHash
    s.redownloadedHeaders = popped at restored hash left ⊢
  have buffer := hr.buffer
  rw [restored, ← append_assoc] at buffer
  have lengths := congrArg length restored
  rw [length_restore, length_append, length_restore] at lengths
  refine ⟨⟨_, buffer⟩, ?_, ?_⟩
  · intro some_
    cases latched : s.processAllRemainingHeaders with
    | true => exact .inl (hr.latch.mp latched)
    | false =>
      right
      rw [latched] at left
      have taken : 0 < popped.1.length := length_pos_iff.mpr some_
      simp only [false_eq_true, if_false] at left
      have total := congrArg length buffer
      rw [length_append, length_restore] at total
      omega
  · intro incomplete
    refine { hr with state := rfl, buffer := buffer, firstPrevHash := ?_, started := ?_ }
    · rw [tip_append, ← hr.firstPrevHash]
      exact hash
    intro empty
    dsimp only at empty incomplete
    rw [empty] at incomplete left
    have waiting : s.processAllRemainingHeaders = false := by simpa using incomplete
    rw [waiting] at left
    simp only [length_nil, false_eq_true, if_false] at left
    exact hr.started (length_eq_zero_iff.mp (by omega))

end

section
variable {sync : Sync} {s : HeadersSyncState} {log : Log} {headers : List CBlockHeader} {full : Bool}

/-- What holds of the log alone. -/
structure Sound (sync : Sync) (log : Log) : Prop where
  checked : Checked sync log.presynced log.accepted
  stored : IntHeights sync log.presynced →
    log.stored = commitments sync sync.chainStart.nHeight log.presynced
  released : log.released <+: log.accepted
  buffered : ∀ i release, log.releases[i]? = some release →
    release.verified ≤ log.accepted.length ∧
      (i + 1 + sync.params.redownloadBufferSize ≤ release.verified ∨
        ReachedWork sync (log.accepted.take release.verified))

/-- What holds of the state and the log after every call. -/
structure Inv (sync : Sync) (s : HeadersSyncState) (log : Log) : Prop where
  sound : Sound sync log
  presync : s.downloadState = .presync →
    Presync sync s log.presynced ∧ log.accepted = [] ∧ log.releases = []
  redownload : s.downloadState = .redownload →
    Redownload sync s log.presynced log.released log.accepted

lemma checked_nil (sync : Sync) (presynced : List CBlockHeader) : Checked sync presynced [] where
  linked := trivial
  permitted i previous header _ hh := by simp at hh
  matched _ i header hh := by simp at hh

lemma initial_inv (sync : Sync) : Inv sync sync.initial Log.empty := by
  constructor
  · refine ⟨checked_nil sync [], fun _ => rfl, prefix_rfl, ?_⟩
    intro i release hr
    simp [Log.empty] at hr
  · exact fun _ => ⟨⟨rfl, fun _ => rfl, fun _ => rfl, rfl⟩, rfl, rfl⟩
  · nofun

lemma Sound.finalize (hs : Sound sync log) : Inv sync (finalize s) log := ⟨hs, nofun, nofun⟩

lemma step_idle (idle : headers = [] ∨ s.downloadState = .final) :
  step sync (s, log) ⟨headers, full⟩ = (s, log) := by
  rcases idle with rfl | ended
  · simp [step, Log.add, processNextHeaders, presyncedBy, storedBy, acceptedBy, taken, storedFrom]
  · simp [step, Log.add, processNextHeaders, presyncedBy, storedBy, acceptedBy, ended]

lemma processNextHeaders_live (sync : Sync) (s : HeadersSyncState) (full : Bool)
  (some_ : headers ≠ []) (live : s.downloadState ≠ .final) :
  sync.processNextHeaders s headers full = let processed := sync.processHeaders s headers full
      if processed.1.success && processed.1.requestMore then processed
      else (processed.1, finalize processed.2) := by
  simp [processNextHeaders, some_, live]

/-- When PRESYNC goes on or switches to REDOWNLOAD, all headers of the batch were taken. -/
lemma validateAndStoreHeadersCommitments_ok (some_ : headers ≠ [])
  (ok : (sync.validateAndStoreHeadersCommitments s headers).1 = true) :
  sync.connects s headers = true ∧
    (untilRefused sync.validateAndProcessSingleHeader s headers).1 = true ∧
    ((sync.validateAndStoreHeadersCommitments s headers).2
        = (untilRefused sync.validateAndProcessSingleHeader s headers).2 ∨
      (sync.validateAndStoreHeadersCommitments s headers).2
        = sync.startRedownload (untilRefused sync.validateAndProcessSingleHeader s headers).2) := by
  have nonempty : headers.isEmpty = false := by simpa using some_
  simp only [validateAndStoreHeadersCommitments, nonempty, false_eq_true, if_false] at ok ⊢
  obtain ⟨-, next⟩ := eq_of_not_refused ok
  rw [next] at ok ⊢
  obtain ⟨connects, next⟩ := eq_of_not_refused ok
  rw [next] at ok ⊢
  split at ok
  · next refused => simp [ok] at refused
  · next hp =>
    rw [if_neg hp]
    refine ⟨by simpa using connects, by simpa using hp, ?_⟩
    split
    · exact .inr rfl
    · exact .inl rfl

lemma Presync.startRedownload {presynced : List CBlockHeader} (hp : Presync sync s presynced) :
  Redownload sync (sync.startRedownload s) presynced [] [] := by
  refine ⟨rfl, rfl, rfl, rfl, rfl, fun _ => rfl, rfl, ?_, fun hs _ => hp.queue hs⟩
  rw [show (sync.startRedownload s).processAllRemainingHeaders = false from hp.waiting]
  simp [not_reachedWork_nil]

lemma add_presync (some_ : headers ≠ []) (hs : s.downloadState = .presync) :
  Log.add sync log s ⟨headers, full⟩ = { log with
      presynced := log.presynced ++ presyncedBy sync s headers
      stored := log.stored
        ++ storedBy sync (sync.chainStart.nHeight + log.presynced.length) s headers } := by
  have nothing : (sync.processNextHeaders s headers full).1.powValidatedHeaders = [] := by
    rw [processNextHeaders_live sync s full some_ (by simp [hs])]
    simp only [processHeaders, hs]
    split
    · rfl
    · rfl
  simp [Log.add, nothing, acceptedBy, hs]

lemma Presync.add_stored (hp : Presync sync s log.presynced)
  (stored : IntHeights sync log.presynced →
    log.stored = commitments sync sync.chainStart.nHeight log.presynced)
  (headers : List CBlockHeader)
  (hs : IntHeights sync (log.presynced ++ presyncedBy sync s headers)) :
  log.stored ++ storedBy sync (sync.chainStart.nHeight + log.presynced.length) s headers
    = commitments sync sync.chainStart.nHeight (log.presynced ++ presyncedBy sync s headers) := by
  simp only [IntHeights, length_append] at hs
  have before : IntHeights sync log.presynced := by
    unfold IntHeights
    omega
  rw [commitments_append, stored before]
  congr 1
  unfold storedBy presyncedBy at *
  split
  · next connects =>
    rw [if_pos connects] at hs
    exact storedFrom_eq (hp.height before) (by omega)
  · rfl

lemma presync_step (inv : Inv sync s log) (some_ : headers ≠ [])
  (hst : s.downloadState = .presync) :
  Inv sync (step sync (s, log) ⟨headers, full⟩).1 (step sync (s, log) ⟨headers, full⟩).2 := by
  obtain ⟨presync, noneAccepted, noneReleased⟩ := inv.presync hst
  have sound : Sound sync (Log.add sync log s ⟨headers, full⟩) := by
    rw [add_presync some_ hst]
    refine { inv.sound with checked := ?_, stored := presync.add_stored inv.sound.stored headers }
    rw [noneAccepted]
    exact checked_nil sync _
  have isStep : step sync (s, log) ⟨headers, full⟩ =
    ((sync.processNextHeaders s headers full).2, Log.add sync log s ⟨headers, full⟩) := rfl
  rw [isStep, processNextHeaders_live sync s full some_ (by simp [hst])]
  dsimp only
  split
  · next goesOn =>
    simp only [processHeaders, hst, and_eq_true] at goesOn ⊢
    obtain ⟨connects, all, next⟩ := validateAndStoreHeadersCommitments_ok some_ goesOn.1
    obtain ⟨s', hk, last⟩ := untilRefused_keeps sync.validateAndProcessSingleHeader (Presync sync)
      (fun s hd header hke ok => hke.taken ok) presync headers
    rw [← last all] at hk
    have presynced : log.presynced ++ taken sync.validateAndProcessSingleHeader s headers =
      (Log.add sync log s ⟨headers, full⟩).presynced := by
      simp [Log.add, presyncedBy, hst, connects]
    rw [presynced] at hk
    have empty : (Log.add sync log s ⟨headers, full⟩).accepted = [] ∧
      (Log.add sync log s ⟨headers, full⟩).releases = [] := by
      rw [add_presync some_ hst]
      exact ⟨noneAccepted, noneReleased⟩
    rcases next with hs | switched
    · rw [hs]
      refine ⟨sound, fun _ => ⟨hk, empty⟩, fun other => ?_⟩
      rw [hk.state] at other
      cases other
    rw [switched]
    refine ⟨sound, nofun, fun _ => ?_⟩
    rw [Log.released, empty.1, empty.2]
    exact hk.startRedownload
  · exact sound.finalize

/-- The log stays sound when checked headers are accepted and ready ones are released. -/
lemma Sound.extend {acc popped : List CBlockHeader} (hs : Sound sync log)
  (hc : Checked sync log.presynced acc) (hg : log.accepted <+: acc)
  (ho : log.released ++ popped <+: acc) (hrea : popped ≠ [] → ReachedWork sync acc ∨
    (log.released ++ popped).length + sync.params.redownloadBufferSize = acc.length) :
  Sound sync { log with
    accepted := acc
    releases := log.releases ++ popped.map (⟨·, acc.length⟩) } := by
  have earlier : log.released.length = log.releases.length := length_map ..
  constructor
  · exact hc
  · exact hs.stored
  · simpa [Log.released, Function.comp_def] using ho
  · intro i release hr
    rcases lt_or_ge i log.releases.length with old | new
    · rw [getElem?_append_left old] at hr
      obtain ⟨hw, verified⟩ := hs.buffered i release hr
      obtain ⟨rest, rfl⟩ := hg
      rw [take_append_of_le_length hw, length_append]
      exact ⟨by omega, verified⟩
    rw [getElem?_append_right new, getElem?_map] at hr
    obtain ⟨header, hh, rfl⟩ := Option.map_eq_some_iff.mp hr
    have inside : i - log.releases.length < popped.length := (List.getElem?_eq_some_iff.mp hh).1
    refine ⟨le_refl _, ?_⟩
    rw [take_length]
    rcases hrea (ne_nil_of_length_pos (by omega)) with hre | buffered
    · exact .inr hre
    left
    rw [length_append] at buffered
    dsimp only
    omega

variable (size : 1 ≤ sync.params.redownloadBufferSize)
include size

lemma redownload_step (inv : Inv sync s log)
  (some_ : headers ≠ []) (hs : s.downloadState = .redownload) :
  Inv sync (step sync (s, log) ⟨headers, full⟩).1 (step sync (s, log) ⟨headers, full⟩).2 := by
  obtain ⟨s', ⟨hc, redownload⟩, last⟩ := untilRefused_keeps sync.validateAndStoreRedownloadedHeader
    (fun s hd => Checked sync log.presynced hd ∧ Redownload sync s log.presynced log.released hd)
    (fun s hd header hk ok => by
      obtain ⟨queue, accepts, next⟩ := validateAndStoreRedownloadedHeader_accepts ok
      rw [next]
      exact hk.2.accept hk.1 accepts)
    ⟨inv.sound.checked, inv.redownload hs⟩ headers
  generalize isAcc : log.accepted ++ taken sync.validateAndStoreRedownloadedHeader s headers = acc
    at hc redownload
  have grows : log.accepted <+: acc := ⟨_, isAcc⟩
  have added : ∀ popped, (sync.processNextHeaders s headers full).1.powValidatedHeaders = popped →
    Log.add sync log s ⟨headers, full⟩ = { log with
      accepted := acc
      releases := log.releases ++ popped.map (⟨·, acc.length⟩) } := by
    rintro popped rfl
    simp [Log.add, presyncedBy, storedBy, acceptedBy, hs, ← isAcc]
  have isStep : step sync (s, log) ⟨headers, full⟩ =
    ((sync.processNextHeaders s headers full).2, Log.add sync log s ⟨headers, full⟩) := rfl
  have live := processNextHeaders_live sync s full some_ (by simp [hs])
  simp only [processHeaders, hs] at live
  cases all : (untilRefused sync.validateAndStoreRedownloadedHeader s headers).1 with
  | false =>
    simp only [all, Bool.not_false, if_true, Bool.and_self, false_eq_true, if_false] at live
    rw [isStep, added [] (by rw [live]), live]
    refine Sound.finalize (inv.sound.extend hc grows ?_ fun h => absurd rfl h)
    rw [append_nil]
    exact inv.sound.released.trans grows
  | true =>
    rw [← last all] at redownload
    obtain ⟨ho, hr, goesOn⟩ := redownload.release size
    simp only [all, Bool.not_true, false_eq_true, if_false, Bool.true_and] at live
    have sound := inv.sound.extend hc grows ho hr
    have popped : (sync.processNextHeaders s headers full).1.powValidatedHeaders =
      (sync.popHeadersReadyForAcceptance
        (untilRefused sync.validateAndStoreRedownloadedHeader s headers).2).1 := by
      rw [live]
      split
      · rfl
      · rfl
    rw [isStep, added _ popped, live]
    split
    · next more =>
      simp only [and_eq_true, not_eq_true'] at more
      have next := goesOn more.1
      refine ⟨sound, fun other => ?_, fun _ => ?_⟩
      · rw [next.state] at other
        cases other
      · simpa [Log.released, Function.comp_def] using next
    · exact sound.finalize

lemma step_inv (inv : Inv sync s log) (call : Call) :
  Inv sync (step sync (s, log) call).1 (step sync (s, log) call).2 := by
  obtain ⟨headers, full⟩ := call
  by_cases some_ : headers = []
  · rw [step_idle (.inl some_)]
    exact inv
  cases state : s.downloadState with
  | presync => exact presync_step inv some_ state
  | redownload => exact redownload_step size inv some_ state
  | final =>
    rw [step_idle (.inr state)]
    exact inv

lemma run_inv (calls : List Call) : Inv sync (run sync calls).1 (run sync calls).2 := by
  refine foldlRecOn (motive := fun at_ => Inv sync at_.1 at_.2) (b := (_, _)) calls (step sync)
    (initial_inv sync) fun at_ inv call _ => ?_
  exact step_inv size inv call

end

section

/-- What is kept between two calls fits in the limits. -/
def Within (sync : Sync) (s : HeadersSyncState) : Prop :=
  s.headerCommitments.length ≤ sync.maxCommitments ∧
    s.redownloadedHeaders.length ≤ sync.params.redownloadBufferSize

variable {sync : Sync} {s : HeadersSyncState} {headers : List CBlockHeader} {full : Bool}

lemma Within.processHeaders (within : Within sync s)
  (ok : (sync.processHeaders s headers full).1.success = true) :
  Within sync (sync.processHeaders s headers full).2 := by
  rw [Sync.processHeaders] at ok ⊢
  split at ok
  case h_1 => cases ok
  case h_2 =>
    obtain ⟨s', kept, last⟩ := @untilRefused_keeps _ _ sync.validateAndProcessSingleHeader
      (fun s _ => Within sync s) (by grind [Within, validateAndProcessSingleHeader]) s [] within headers
    grind [Within, validateAndStoreHeadersCommitments, startRedownload]
  case h_3 state =>
    obtain ⟨s', kept, last⟩ := @untilRefused_keeps _ _ sync.validateAndStoreRedownloadedHeader
      (fun s _ => s.downloadState = .redownload ∧ s.headerCommitments.length ≤ sync.maxCommitments)
      (by grind [validateAndStoreRedownloadedHeader, trackWork, storeHeader])
      s [] ⟨state, within.1⟩ headers
    have popped := popHeaders_spec sync
    grind [Within, popHeadersReadyForAcceptance]

/-- No calls make a sync keep more commitments or headers than its limits. -/
theorem run_within (sync : Sync) (calls : List Call) : Within sync (run sync calls).1 := by
  refine foldlRecOn (motive := fun at_ => Within sync at_.1) calls (step sync) ?_ ?_
  · exact ⟨Nat.zero_le _, Nat.zero_le _⟩
  · intro at_ within call _
    have next := @Within.processHeaders sync at_.1 call.receivedHeaders call.fullHeadersMessage within
    rw [step, processNextHeaders]
    grind [Within, finalize]

end

/-- What is promised of the headers that a run has released. -/
structure Releases (sync : Sync) (log : Log) : Prop where
  linked : Linked sync.getHash CBlockHeader.hashPrevBlock (sync.getHash sync.chainStart.header)
    log.released
  inOrder : log.released <+: log.accepted
  permitted : Permitted sync log.released
  buffered : ∀ i release, log.releases[i]? = some release →
    i + 1 + sync.params.redownloadBufferSize ≤ release.verified ∨
      ReachedWork sync (log.accepted.take release.verified)
  matched : IntHeights sync log.presynced → ∀ i release, log.releases[i]? = some release →
    sync.commitsAt (sync.chainStart.nHeight + i + 1 : ℕ) →
    ¬ ReachedWork sync (log.accepted.take release.verified) →
    log.stored.lookup (sync.chainStart.nHeight + i + 1) = some (sync.commitment release.header)

/-- In every run of a sync whose buffer holds a header: the released headers are a hash-linked
chain on the start and a prefix of those accepted in REDOWNLOAD, and follow the difficulty rule;
none is released before the buffer is full or the work sufficient; and before the work was, one at
a commitment height matches the bit kept in PRESYNC, where those heights are of type `int`. -/
theorem presync_releases_checked_chain (sync : Sync)
  (size : 1 ≤ sync.params.redownloadBufferSize) (calls : List Call) :
  Releases sync (run sync calls).2 := by
  obtain ⟨⟨hc, stored, released, buffered⟩, -, -⟩ := run_inv size calls
  generalize (run sync calls).2 = log at *
  have linked := hc.linked
  obtain ⟨rest, ha⟩ := released
  rw [← ha, linked_append] at linked
  constructor
  · exact linked.1
  · exact ⟨rest, ha⟩
  · exact permitted_of_prefix sync hc.permitted ⟨rest, ha⟩
  · intro i release hr
    exact (buffered i release hr).2
  · intro hs i release hr hco hu
    have isReleased : log.released[i]? = some release.header := by
      rw [Log.released, getElem?_map, hr]
      rfl
    have isHeader : log.accepted[i]? = some release.header := by
      rw [← ha, List.getElem?_append_left (List.getElem?_eq_some_iff.mp isReleased).1]
      exact isReleased
    -- the header itself was accepted before the work was sufficient
    have early : ¬ ReachedWork sync (log.accepted.take (i + 1)) := by
      intro hre
      have later : i + 1 ≤ release.verified := by
        rcases (buffered i release hr).2 with buffer | hre
        · omega
        · exact absurd hre hu
      exact hu (reachedWork_mono sync (take_prefix_take_left later) hre)
    obtain ⟨he, isEarlier, hsa⟩ := hc.matched hs i release.header isHeader hco early
    rw [stored hs, lookup_commitments sync isEarlier hco, hsa]

/-- A sync with blocks of work 2 whose hashes are their nonces. -/
def nonceSync (nHeight : ℕ) (params : HeadersSyncParams) (minimumRequiredWork : ArithUint256)
  (commitOffset : ℕ) (offset_lt : commitOffset < params.commitmentPeriod) : Sync where
  getHash := fun header => header.nNonce.setWidth 256
  hasher := fun hash => hash.toNat
  consensusParams := ⟨0x7fffff#256 <<< 232, false, false, false, 600, 1209600⟩
  params := params
  chainStart := ⟨⟨1, 0, 0, 0, 0x207fffff, 0⟩, nHeight, 0, 0⟩
  minimumRequiredWork := minimumRequiredWork
  now := 0
  commitOffset := commitOffset
  offset_lt := offset_lt

/-- The headers with the given nonces, each on the one before. -/
def nonceHeaders (nonces : List ℕ) : List CBlockHeader :=
  nonces.map fun n => ⟨1, BitVec.ofNat 256 (n - 1), 0, 0, 0x207fffff, BitVec.ofNat 32 n⟩

/-- Five headers, committed to at odd heights and redownloaded in two parts. -/
def oddSync : Sync := nonceSync 0 ⟨2, 1⟩ 10 1 (by decide)

def oddCalls : List Call :=
  [⟨nonceHeaders [1, 2, 3, 4, 5], true⟩, ⟨nonceHeaders [1, 2, 3], true⟩, ⟨nonceHeaders [4, 5], true⟩]

theorem presync_releases_odd_chain :
  (run oddSync oddCalls).2.releases.map Release.verified = [3, 3, 5, 5, 5] ∧
    (run oddSync oddCalls).2.stored = [(1, true), (3, true), (5, true)] ∧
    Releases oddSync (run oddSync oddCalls).2 := by
  refine ⟨by decide +kernel, by decide +kernel, ?_⟩
  exact presync_releases_checked_chain oddSync (by decide) oddCalls

/-- Six headers from two below the largest `int` on, committed to at height `2 ^ 31 + 1`. -/
def wrapSync : Sync := nonceSync (2 ^ 31 - 2) ⟨7, 1⟩ 12 3 (by decide)

def wrapCalls : List Call :=
  [⟨nonceHeaders [1, 2, 3, 4, 5, 6], true⟩, ⟨nonceHeaders [1, 2, 3, 4], true⟩]

/-- The batches of a run are linked within themselves. -/
def BatchesLinked (sync : Sync) (calls : List Call) : Prop :=
  ∀ call ∈ calls, call.receivedHeaders.IsChain fun a b => b.hashPrevBlock = sync.getHash a

instance (sync : Sync) (calls : List Call) : Decidable (BatchesLinked sync calls) :=
  inferInstanceAs (Decidable (∀ call ∈ calls, List.IsChain _ call.receivedHeaders))

/-- The buffer size itself is the number of later headers that suffices. And once PRESYNC heights
overflow `int`, bits are kept for other heights than REDOWNLOAD checks: a header at a commitment
height is released without a bit for it. -/
theorem presync_releases_at_buffer_size_or_unmatched :
  (BatchesLinked oddSync oddCalls ∧ 1 ≤ oddSync.params.redownloadBufferSize ∧
    ∃ i release, (run oddSync oddCalls).2.releases[i]? = some release ∧
      ¬ i + 1 + oddSync.params.redownloadBufferSize < release.verified ∧
      ¬ ReachedWork oddSync ((run oddSync oddCalls).2.accepted.take release.verified)) ∧
  (BatchesLinked wrapSync wrapCalls ∧ 1 ≤ wrapSync.params.redownloadBufferSize ∧
    ∃ i release, (run wrapSync wrapCalls).2.releases[i]? = some release ∧
      wrapSync.commitsAt (wrapSync.chainStart.nHeight + i + 1 : ℕ) ∧
      ¬ ReachedWork wrapSync ((run wrapSync wrapCalls).2.accepted.take release.verified) ∧
      (run wrapSync wrapCalls).2.stored.lookup (wrapSync.chainStart.nHeight + i + 1) = none) := by
  constructor
  · refine ⟨by decide +kernel, by decide, 1, ⟨(nonceHeaders [2]).headD CBlockHeader.null, 3⟩, ?_⟩
    exact ⟨by decide +kernel, by decide +kernel, by decide +kernel⟩
  · refine ⟨by decide +kernel, by decide, 2, ⟨(nonceHeaders [3]).headD CBlockHeader.null, 4⟩, ?_⟩
    exact ⟨by decide +kernel, by decide +kernel, by decide +kernel, by decide +kernel⟩

end HeadersSyncSafety
