import Mathlib

/-!
# The queue of parallel checks

`CCheckQueue`: a master adds checks and joins the workers in `Complete`. A step of a thread is one of
its critical sections or the evaluation of one check. A waiting thread may wake up at any time.
-/

namespace CheckQueue

open List Finset Function Multiset Option

section
variable {T R : Type} {n : ℕ}

/-- Where a thread is in `Loop`. -/
inductive Phase (T : Type) where
  /-- Not in `Loop`: the master between two calls of `Complete`. -/
  | outside
  /-- Before the critical section. -/
  | entering
  /-- At the `while` loop of the critical section. -/
  | seeking
  /-- In `cond.wait`. -/
  | waiting
  /-- After the critical section, with the checks of the batch that are left. -/
  | executing (doWork : Bool) (vChecks : List T)

structure Thread (T R : Type) where
  phase : Phase T
  nNow : ℕ
  localResult : Option R

/-- The workers, and the master as `none`. -/
abbrev ThreadId (n : ℕ) := Option (Fin n)

structure CCheckQueue (T R : Type) (n : ℕ) where
  queue : List T
  nIdle : ℕ
  nTotal : ℕ
  result : Option R
  nTodo : ℕ
  threads : ThreadId n → Thread T R
  /-- `m_master_cv` has been notified since the master began to wait. -/
  masterNotified : Bool
  /-- The checks that were added since `Complete` last returned. -/
  added : List T
  /-- The checks that were evaluated since then. -/
  evaluated : List T

namespace CCheckQueue

/-- The workers have been started. -/
def new (T R : Type) (n : ℕ) : CCheckQueue T R n where
  queue := []
  nIdle := 0
  nTotal := 0
  result := none
  nTodo := 0
  threads t := ⟨if t = none then .outside else .entering, 0, none⟩
  masterNotified := false
  added := []
  evaluated := []

variable (q : CCheckQueue T R n) (t : ThreadId n)

def setThread (thread : Thread T R) : CCheckQueue T R n :=
  { q with threads := update q.threads t thread }

def add (vChecks : List T) : CCheckQueue T R n :=
  if vChecks = [] then q
  else
    { q with
      queue := q.queue ++ vChecks
      nTodo := q.nTodo + vChecks.length
      added := q.added ++ vChecks }

/-- `local_result` and `m_result` after the first was swapped into the second, if it may be. -/
def swapResults (localResult result : Option R) : Option R × Option R :=
  if localResult.isSome && result.isNone then (result, localResult) else (localResult, result)

/-- The clean-up of the previous loop run. -/
def cleanUp : CCheckQueue T R n :=
  let thread := q.threads t
  if thread.nNow ≠ 0 then
    let swapped := swapResults thread.localResult q.result
    let nTodo := q.nTodo - thread.nNow
    { q.setThread t ⟨.seeking, thread.nNow, swapped.1⟩ with
      result := swapped.2
      nTodo := nTodo
      masterNotified := q.masterNotified || (nTodo == 0 && t.isSome) }
  else { q.setThread t { thread with phase := .seeking } with nTotal := q.nTotal + 1 }

/-- `nNow` of the next batch. -/
def batchCount (batchSize : ℕ) : ℕ :=
  max 1 (min batchSize (q.queue.length / (q.nTotal + q.nIdle + 1)))

/-- The critical section from the `while` loop on: `Complete` returns, the thread waits, or it takes
a batch from the end of the queue. -/
def seek (batchSize : ℕ) : CCheckQueue T R n × Option (Option R) :=
  let thread := q.threads t
  match q.queue with
  | [] =>
    if t = none ∧ q.nTodo = 0 then
      ({ q.setThread t { thread with phase := .outside } with
        nTotal := q.nTotal - 1
        result := none
        added := []
        evaluated := [] }, some q.result)
    else
      ({ q.setThread t { thread with phase := .waiting } with
        nIdle := q.nIdle + 1
        masterNotified := q.masterNotified && t.isSome }, none)
  | queue =>
    let nNow := q.batchCount batchSize
    let start := queue.length - nNow
    ({ q.setThread t ⟨.executing q.result.isNone (queue.drop start), nNow, thread.localResult⟩ with
      queue := queue.take start }, none)

/-- The next evaluation of a batch, or its end. -/
def execute (eval : T → Option R) (doWork : Bool) (vChecks : List T) : CCheckQueue T R n :=
  let thread := q.threads t
  match doWork, vChecks with
  | true, check :: rest =>
    let localResult := eval check
    let phase := if localResult.isSome then .entering else .executing true rest
    { q.setThread t ⟨phase, thread.nNow, localResult⟩ with evaluated := check :: q.evaluated }
  | _, _ => q.setThread t { thread with phase := .entering }

end CCheckQueue

inductive Event (T : Type) (n : ℕ) where
  /-- `Add` by the master. -/
  | add (vChecks : List T)
  /-- The master calls `Complete`. -/
  | complete
  | step (t : ThreadId n)

/-- The state after an event, and what `Complete` returns by it. -/
def CCheckQueue.step (eval : T → Option R) (batchSize : ℕ) (q : CCheckQueue T R n) :
  Event T n → Option (CCheckQueue T R n × Option (Option R))
  | .add vChecks =>
    match (q.threads none).phase with
    | .outside => some (q.add vChecks, none)
    | _ => none
  | .complete =>
    match (q.threads none).phase with
    | .outside => some (q.setThread none ⟨.entering, 0, none⟩, none)
    | _ => none
  | .step t =>
    match (q.threads t).phase with
    | .entering => some ((q.cleanUp t).seek t batchSize)
    | .waiting =>
      some ({ q.setThread t { q.threads t with phase := .seeking } with nIdle := q.nIdle - 1 }.seek
        t batchSize)
    | .executing doWork vChecks => some (q.execute t eval doWork vChecks, none)
    | _ => none

def CCheckQueue.run (eval : T → Option R) (batchSize : ℕ) (q : CCheckQueue T R n)
  (events : List (Event T n)) : Option (CCheckQueue T R n) :=
  events.foldlM (fun q event => (q.step eval batchSize event).map Prod.fst) q

end

section
variable {T R : Type} {n : ℕ} {eval : T → Option R} {m : ℕ} {q q' : CCheckQueue T R n}
  {t : ThreadId n} {doWork : Bool} {vChecks : List T} {thread : Thread T R}

/-- The checks of a thread that `nTodo` still counts. -/
def Thread.pending (thread : Thread T R) : ℕ :=
  match thread.phase with
  | .entering | .executing _ _ => thread.nNow
  | _ => 0

/-- The checks that a thread holds. -/
def Thread.held (thread : Thread T R) : List T :=
  match thread.phase with
  | .executing _ vChecks => vChecks
  | _ => []

/-- A thread brings an error, or a check that gives one. -/
def Thread.Carries (eval : T → Option R) (thread : Thread T R) : Prop :=
  match thread.phase with
  | .entering => thread.nNow ≠ 0 ∧ thread.localResult.isSome
  | .executing _ vChecks => ∃ x ∈ vChecks, (eval x).isSome
  | _ => False

/-- The private state of a thread: an old `local_result` is overwritten before it is looked at, unless
an error is known already. -/
def Thread.Sound (eval : T → Option R) (result : Option R) (added : List T) (thread : Thread T R) :
  Prop :=
  match thread.phase with
  | .entering => thread.nNow = 0 ∨ ∀ e, thread.localResult = some e →
      result.isSome ∨ ∃ x ∈ added, eval x = some e
  | .executing false _ => thread.nNow ≠ 0 ∧ result.isSome
  | .executing true vChecks => thread.nNow ≠ 0 ∧ (vChecks = [] → thread.localResult = none)
  | _ => True

/-- The invariant of a session, over all threads. -/
structure Sound (eval : T → Option R) (q : CCheckQueue T R n) : Prop where
  todo : q.nTodo = q.queue.length + ∑ t, (q.threads t).pending
  once : (q.evaluated : Multiset T) + q.queue + ∑ t, ((q.threads t).held : Multiset T) ≤ q.added
  threads : ∀ t, (q.threads t).Sound eval q.result q.added
  result : ∀ e, q.result = some e → ∃ x ∈ q.added, eval x = some e
  found : (∃ x ∈ q.added, (eval x).isSome) → q.result.isSome ∨ (∃ x ∈ q.queue, (eval x).isSome) ∨
    ∃ t, (q.threads t).Carries eval
  notified : (q.threads none).phase = .waiting →
    q.queue = [] ∧ (q.nTodo = 0 → q.masterNotified = true)

lemma sum_update {M : Type} [AddCommMonoid M] (f : Thread T R → M) (threads : ThreadId n → Thread T R)
  (t : ThreadId n) (thread : Thread T R) :
  ∑ x, f (update threads t thread x) + f (threads t) = ∑ x, f (threads x) + f thread := by
  rw [← add_sum_erase univ _ (mem_univ t),
    ← add_sum_erase univ (fun x => f (threads x)) (mem_univ t)]
  have others : ∑ x ∈ univ.erase t, f (update threads t thread x) =
    ∑ x ∈ univ.erase t, f (threads x) := by
    refine sum_congr rfl fun x hm => ?_
    rw [update_of_ne (ne_of_mem_erase hm)]
  rw [others, update_self]
  abel

lemma Thread.Sound.mono {result result' : Option R} {added added' : List T}
  (sound : thread.Sound eval result added) (known : result.isSome → result'.isSome)
  (more : ∀ x ∈ added, x ∈ added') : thread.Sound eval result' added' := by
  obtain ⟨phase, nNow, localResult⟩ := thread
  cases phase with
  | outside | seeking | waiting => trivial
  | entering =>
    refine sound.imp_right fun fresh e eq => (fresh e eq).imp known ?_
    rintro ⟨x, hm, isE⟩
    exact ⟨x, more x hm, isE⟩
  | executing doWork vChecks =>
    cases doWork with
    | false => exact ⟨sound.1, known sound.2⟩
    | true => exact sound

lemma Sound.setThread (sound : Sound eval q)
  (ht : q'.threads = update q.threads t thread) (added : q'.added = q.added)
  (todo : q'.nTodo + q.queue.length + (q.threads t).pending =
    q.nTodo + q'.queue.length + thread.pending)
  (hmo : (q'.evaluated : Multiset T) + q'.queue + thread.held ≤
    (q.evaluated : Multiset T) + q.queue + (q.threads t).held)
  (own : thread.Sound eval q'.result q.added) (known : q.result.isSome → q'.result.isSome)
  (ho : ∀ e, q'.result = some e → q.result = some e ∨ ∃ x ∈ q.added, eval x = some e)
  (hk : (∃ x ∈ q.queue, (eval x).isSome) ∨ (q.threads t).Carries eval →
    q'.result.isSome ∨ (∃ x ∈ q'.queue, (eval x).isSome) ∨ thread.Carries eval)
  (hn : (q'.threads none).phase = .waiting →
    q'.queue = [] ∧ (q'.nTodo = 0 → q'.masterNotified = true)) : Sound eval q' := by
  have self : q'.threads t = thread := by rw [ht, update_self]
  have others : ∀ t', t' ≠ t → q'.threads t' = q.threads t' := fun t' ne => by
    rw [ht, update_of_ne ne]
  refine ⟨?_, ?_, fun t' => ?_, fun e eq => ?_, fun failing => ?_, hn⟩
  · have sums := sum_update Thread.pending q.threads t thread
    have before := sound.todo
    rw [ht]
    omega
  · have sums := sum_update (fun thread => (thread.held : Multiset T)) q.threads t thread
    rw [← ht] at sums
    rw [added]
    refine le_of_add_le_add_right (a := ((q.threads t).held : Multiset T)) ?_
    calc (q'.evaluated : Multiset T) + q'.queue + ∑ t, ((q'.threads t).held : Multiset T) +
          (q.threads t).held
        = (q'.evaluated : Multiset T) + q'.queue + thread.held +
            ∑ t, ((q.threads t).held : Multiset T) := by
          rw [add_assoc _ _ ((q.threads t).held : Multiset T), sums]
          abel
      _ ≤ (q.evaluated : Multiset T) + q.queue + (q.threads t).held +
            ∑ t, ((q.threads t).held : Multiset T) := add_le_add_left hmo _
      _ = (q.evaluated : Multiset T) + q.queue + ∑ t, ((q.threads t).held : Multiset T) +
            (q.threads t).held := by abel
      _ ≤ q.added + (q.threads t).held := add_le_add_left sound.once _
  · rw [added]
    by_cases hs : t' = t
    · rw [hs, self]
      exact own
    · rw [others t' hs]
      exact (sound.threads t').mono known fun x hm => hm
  · rw [added]
    exact (ho e eq).elim (sound.result e) id
  · have carries : (∃ x ∈ q'.queue, (eval x).isSome) ∨ thread.Carries eval →
      (∃ x ∈ q'.queue, (eval x).isSome) ∨ ∃ t, (q'.threads t).Carries eval :=
      Or.imp_right fun h => ⟨t, self ▸ h⟩
    rw [added] at failing
    rcases sound.found failing with isSome | hq | ⟨t', carried⟩
    · exact .inl (known isSome)
    · exact (hk (.inl hq)).imp_right carries
    · by_cases hs : t' = t
      · exact (hk (.inr (hs ▸ carried))).imp_right carries
      · exact .inr (.inr ⟨t', others t' hs ▸ carried⟩)

lemma waiting_of_update (hwa : thread.phase ≠ .waiting)
  (hw : (update q.threads t thread none).phase = .waiting) :
  t ≠ none ∧ (q.threads none).phase = .waiting := by
  by_cases hm : t = none
  · rw [hm, update_self] at hw
    exact absurd hw hwa
  · rw [update_of_ne (Ne.symm hm)] at hw
    exact ⟨hm, hw⟩

/-- One thread moves, and nothing else that is shared changes. -/
lemma Sound.move (sound : Sound eval q) {nIdle nTotal : ℕ} {evaluated : List T}
  (hwa : thread.phase ≠ .waiting) (pending : (q.threads t).pending = thread.pending)
  (held : (evaluated : Multiset T) + thread.held ≤ q.evaluated + (q.threads t).held)
  (own : thread.Sound eval q.result q.added)
  (carries : (q.threads t).Carries eval → q.result.isSome ∨ thread.Carries eval) :
  Sound eval { q.setThread t thread with
    nIdle := nIdle
    nTotal := nTotal
    evaluated := evaluated } := by
  refine sound.setThread rfl rfl ?_ ?_ own id (fun e => .inl) ?_ fun hw => ?_
  · rw [pending]
    rfl
  · rw [add_right_comm, add_right_comm (q.evaluated : Multiset T)]
    exact add_le_add_left held _
  · rintro (hq | hc)
    · exact .inr (.inl hq)
    · exact (carries hc).imp_right .inr
  · exact sound.notified (waiting_of_update hwa hw).2

lemma sound_new (eval : T → Option R) (n : ℕ) : Sound eval (CCheckQueue.new T R n) := by
  have idle : ∀ t, ((CCheckQueue.new T R n).threads t).pending = 0 ∧
    ((CCheckQueue.new T R n).threads t).held = [] := by
    intro t
    cases t <;> exact ⟨rfl, rfl⟩
  refine ⟨?_, ?_, fun t => ?_, by simp [CCheckQueue.new], by simp [CCheckQueue.new], ?_⟩
  · simp only [idle]
    simp [CCheckQueue.new]
  · simp only [idle]
    simp [CCheckQueue.new]
  · cases t with
    | none => trivial
    | some i => exact .inl rfl
  · intro hw
    cases hw

lemma Sound.add (sound : Sound eval q) (ho : (q.threads none).phase = .outside)
  (vChecks : List T) : Sound eval (q.add vChecks) := by
  rw [CCheckQueue.add]
  split_ifs
  · exact sound
  have more : ∀ x ∈ q.added, x ∈ q.added ++ vChecks := fun x => mem_append_left _
  refine ⟨?_, ?_, fun t => (sound.threads t).mono id more, fun e eq => ?_, fun failing => ?_, ?_⟩
  · have todo := sound.todo
    simp only [length_append]
    omega
  · have once := sound.once
    simp only [← coe_add]
    calc (q.evaluated : Multiset T) + (q.queue + vChecks) + ∑ t, ((q.threads t).held : Multiset T)
        = (q.evaluated : Multiset T) + q.queue + ∑ t, ((q.threads t).held : Multiset T) + vChecks := by
          abel
      _ ≤ q.added + vChecks := add_le_add_left once _
  · obtain ⟨x, hm, isE⟩ := sound.result e eq
    exact ⟨x, more x hm, isE⟩
  · obtain ⟨x, hm, hf⟩ := failing
    rcases mem_append.mp hm with old | new
    · refine (sound.found ⟨x, old, hf⟩).imp_right (Or.imp_left ?_)
      rintro ⟨y, hq, failsY⟩
      exact ⟨y, mem_append_left _ hq, failsY⟩
    · exact .inr (.inl ⟨x, mem_append_right _ new, hf⟩)
  · intro hw
    simp [ho] at hw

lemma Sound.pending_le (sound : Sound eval q) (t : ThreadId n) :
  (q.threads t).pending ≤ q.nTodo := by
  have le := single_le_sum (f := fun t => (q.threads t).pending)
    (fun t _ => Nat.zero_le _) (mem_univ t)
  have todo := sound.todo
  omega

lemma isSome_swapResults (localResult result : Option R) :
  (CCheckQueue.swapResults localResult result).2.isSome ↔ result.isSome ∨ localResult.isSome := by
  cases localResult <;> cases result <;> simp [CCheckQueue.swapResults]

lemma swapResults_eq_some {localResult result : Option R} {e : R}
  (eq : (CCheckQueue.swapResults localResult result).2 = some e) :
  result = some e ∨ result = none ∧ localResult = some e := by
  cases localResult <;> cases result <;> simp_all [CCheckQueue.swapResults]

lemma Sound.cleanUp (sound : Sound eval q) (he : (q.threads t).phase = .entering) :
  Sound eval (q.cleanUp t) := by
  have pending : (q.threads t).pending = (q.threads t).nNow := by rw [Thread.pending, he]
  have held : (q.threads t).held = [] := by rw [Thread.held, he]
  have own := sound.threads t
  rw [Thread.Sound, he] at own
  have le := sound.pending_le t
  rw [CCheckQueue.cleanUp]
  by_cases used : (q.threads t).nNow ≠ 0
  · rw [if_pos used]
    refine sound.setThread rfl rfl ?_ ?_ trivial ?_ ?_ ?_ ?_
    · change q.nTodo - (q.threads t).nNow + q.queue.length + (q.threads t).pending =
        q.nTodo + q.queue.length + 0
      omega
    · change _ + _ + (([] : List T) : Multiset T) ≤ _
      rw [held]
      rfl
    · exact fun isSome => (isSome_swapResults _ _).mpr (.inl isSome)
    · intro e eq
      refine (swapResults_eq_some eq).imp_right fun ⟨unset, isE⟩ => ?_
      rcases own.resolve_left used e isE with set | hf
      · rw [unset] at set
        cases set
      · exact hf
    · rintro (hq | hc)
      · exact .inr (.inl hq)
      · rw [Thread.Carries, he] at hc
        exact .inl ((isSome_swapResults _ _).mpr (.inr hc.2))
    · intro hw
      obtain ⟨isWorker, hw⟩ := waiting_of_update (by simp) hw
      refine ⟨(sound.notified hw).1, fun zero => ?_⟩
      have zero : q.nTodo - (q.threads t).nNow = 0 := zero
      simp [zero, isSome_iff_ne_none.mpr isWorker]
  · rw [if_neg used]
    refine sound.move (by simp) (pending.trans (not_not.mp used)) (by rw [held]; rfl) trivial ?_
    intro hc
    rw [Thread.Carries, he] at hc
    exact absurd hc.1 used

/-- Nothing is left to do: no thread holds a check or brings an error. -/
lemma Sound.quiet (sound : Sound eval q) (hz : q.nTodo = 0) (t : ThreadId n) :
  (q.threads t).pending = 0 ∧ (q.threads t).held = [] ∧
    (∀ result added, (q.threads t).Sound eval result added) ∧ ¬ (q.threads t).Carries eval := by
  have le := sound.pending_le t
  have own := sound.threads t
  have none : (q.threads t).pending = 0 := by omega
  generalize q.threads t = thread at none own ⊢
  obtain ⟨phase, nNow, localResult⟩ := thread
  cases phase with
  | outside | seeking | waiting => exact ⟨none, rfl, fun _ _ => trivial, id⟩
  | entering => exact ⟨none, rfl, fun _ _ => .inl none, fun hc => hc.1 none⟩
  | executing doWork vChecks =>
    cases doWork with
    | false => exact absurd none own.1
    | true => exact absurd none own.1

/-- What `Complete` returns. -/
structure Correct (eval : T → Option R) (added : List T) (result : Option R) : Prop where
  sound : ∀ e, result = some e → ∃ x ∈ added, eval x = some e
  complete : (∀ x ∈ added, eval x = none) ↔ result = none

lemma Sound.correct (sound : Sound eval q) (hz : q.nTodo = 0) (empty : q.queue = []) :
  Correct eval q.added q.result := by
  refine ⟨sound.result, ⟨fun hp => ?_, fun unset x hm => ?_⟩⟩
  · by_contra set
    obtain ⟨e, isE⟩ := ne_none_iff_exists'.mp set
    obtain ⟨x, hm, hf⟩ := sound.result e isE
    rw [hp x hm] at hf
    cases hf
  by_contra hf
  rcases sound.found ⟨x, hm, isSome_iff_ne_none.mpr hf⟩ with set | ⟨y, hq, -⟩ | ⟨t, hc⟩
  · rw [unset] at set
    cases set
  · rw [empty] at hq
    cases hq
  · exact (sound.quiet hz t).2.2.2 hc

/-- The state in which `Complete` returns. -/
structure Finished (q : CCheckQueue T R n) : Prop where
  queue : q.queue = []
  nTodo : q.nTodo = 0
  held : ∀ t, (q.threads t).held = []

/-- The threads when the master has left and nothing is left to do. -/
lemma Sound.quiet_update (sound : Sound eval q) (hz : q.nTodo = 0)
  (ho : thread.phase = .outside) (t : ThreadId n) : let thread' := update q.threads none thread t
  thread'.pending = 0 ∧ thread'.held = [] ∧ (∀ result added, thread'.Sound eval result added) ∧
    ¬ thread'.Carries eval := by
  by_cases hm : t = none
  · rw [hm, update_self]
    obtain ⟨phase, nNow, localResult⟩ := thread
    obtain rfl : phase = .outside := ho
    exact ⟨rfl, rfl, fun _ _ => trivial, id⟩
  · rw [update_of_ne hm]
    exact sound.quiet hz t

lemma Sound.returned (sound : Sound eval q) (hz : q.nTodo = 0) (empty : q.queue = [])
  (ho : thread.phase = .outside) (ht : q'.threads = update q.threads none thread)
  (hq : q'.queue = q.queue) (hnt : q'.nTodo = q.nTodo) (hr : q'.result = none)
  (added : q'.added = []) (he : q'.evaluated = []) : Sound eval q' := by
  have quiet := sound.quiet_update hz ho
  rw [← ht] at quiet
  refine ⟨?_, ?_, fun t => (quiet t).2.2.1 _ _, ?_, ?_, ?_⟩
  · simp [hnt, hz, hq, empty, fun t => (quiet t).1]
  · simp only [he, hq, empty, fun t => (quiet t).2.1, added]
    simp
  · simp [hr]
  · simp [added]
  · rw [ht, update_self, ho]
    exact fun none => nomatch none

lemma CCheckQueue.batchCount_bounds (q : CCheckQueue T R n) (m : ℕ) (nonempty : q.queue ≠ []) :
  0 < q.batchCount m ∧ q.batchCount m ≤ q.queue.length := by
  have pos := length_pos_iff.mpr nonempty
  have share := Nat.div_le_self q.queue.length (q.nTotal + q.nIdle + 1)
  rw [batchCount]
  omega

lemma Sound.seek (sound : Sound eval q) (hse : (q.threads t).phase = .seeking) (m : ℕ) :
  Sound eval (q.seek t m).1 ∧ ∀ result, (q.seek t m).2 = some result →
    Correct eval q.added result ∧ Finished (q.seek t m).1 := by
  have pending : (q.threads t).pending = 0 := by rw [Thread.pending, hse]
  have held : (q.threads t).held = [] := by rw [Thread.held, hse]
  have idle : ¬ (q.threads t).Carries eval := by rw [Thread.Carries, hse]; exact id
  rw [CCheckQueue.seek]
  split
  · next empty =>
    split_ifs with hr
    · obtain ⟨hm, hz⟩ := hr
      subst hm
      exact ⟨sound.returned hz empty rfl rfl rfl rfl rfl rfl rfl, fun result isResult =>
        ⟨some.inj isResult ▸ sound.correct hz empty, empty, hz, fun t =>
          (sound.quiet_update hz rfl t).2.1⟩⟩
    refine ⟨sound.setThread rfl rfl ?_ ?_ trivial id (fun e => .inl) ?_ ?_, fun _ none => nomatch none⟩
    · change q.nTodo + q.queue.length + (q.threads t).pending = q.nTodo + q.queue.length + 0
      omega
    · change _ + _ + (([] : List T) : Multiset T) ≤ _
      rw [held]
      rfl
    · rintro (hq | hc)
      · exact .inr (.inl hq)
      · exact absurd hc idle
    · intro hw
      refine ⟨empty, fun hz => ?_⟩
      have isWorker : t ≠ none := fun hm => hr ⟨hm, hz⟩
      change (update q.threads t _ none).phase = .waiting at hw
      rw [update_of_ne (Ne.symm isWorker)] at hw
      have notified := (sound.notified hw).2 hz
      simp [notified, isSome_iff_ne_none.mpr isWorker]
  · next nonempty =>
    obtain ⟨hp, hb⟩ := q.batchCount_bounds m (by simpa using nonempty)
    set nNow := q.batchCount m
    set start := q.queue.length - nNow
    refine ⟨sound.setThread rfl rfl ?_ ?_ ?_ id (fun e => .inl) ?_ ?_, fun _ none => nomatch none⟩
    · change q.nTodo + q.queue.length + (q.threads t).pending =
        q.nTodo + (q.queue.take start).length + nNow
      rw [length_take]
      omega
    · change (q.evaluated : Multiset T) + (q.queue.take start : Multiset T) +
        (q.queue.drop start : Multiset T) ≤ _
      rw [add_assoc, coe_add, take_append_drop]
      exact le_add_right _ _
    · have taken : q.queue.drop start ≠ [] := by
        rw [ne_eq, drop_eq_nil_iff]
        omega
      cases unset : q.result with
      | none => exact ⟨hp.ne', fun none => absurd none taken⟩
      | some e => exact ⟨hp.ne', isSome_iff_exists.mpr ⟨e, unset⟩⟩
    · rintro (⟨x, hq, hf⟩ | hc)
      · rw [← take_append_drop start q.queue] at hq
        rcases mem_append.mp hq with hs | taken
        · exact .inr (.inl ⟨x, hs, hf⟩)
        · exact .inr (.inr ⟨x, taken, hf⟩)
      · exact absurd hc idle
    · intro hw
      have empty := (sound.notified (waiting_of_update (by simp) hw).2).1
      rw [empty] at hb
      simp only [length_nil] at hb
      omega

section
variable (sound : Sound eval q)
include sound

lemma Sound.leave (he : (q.threads t).phase = .executing doWork vChecks)
  (ends : doWork = false ∨ vChecks = []) :
  Sound eval (q.setThread t { q.threads t with phase := .entering }) := by
  have own := sound.threads t
  rw [Thread.Sound, he] at own
  refine sound.move (by simp) (by rw [Thread.pending, he]; rfl) (add_le_add le_rfl (zero_le _)) ?_ ?_
  · refine .inr fun e isE => ?_
    rcases ends with rfl | rfl
    · exact .inl own.2
    cases doWork with
    | false => exact .inl own.2
    | true =>
      have unset := own.2 rfl
      exact absurd (isE.symm.trans unset) (by simp)
  intro hc
  rw [Thread.Carries, he] at hc
  rcases ends with rfl | rfl
  · exact .inl own.2
  · obtain ⟨x, hm, -⟩ := hc
    cases hm

lemma Sound.evaluate {check : T} {rest : List T}
  (he : (q.threads t).phase = .executing true (check :: rest)) :
  Sound eval (q.execute t eval true (check :: rest)) := by
  have own := sound.threads t
  rw [Thread.Sound, he] at own
  have pending : (q.threads t).pending = (q.threads t).nNow := by rw [Thread.pending, he]
  have held : (q.threads t).held = check :: rest := by rw [Thread.held, he]
  have known : check ∈ q.added := by
    have inside : check ∈ ∑ t, ((q.threads t).held : Multiset T) :=
      mem_sum.mpr ⟨t, mem_univ t, by simp [held]⟩
    exact mem_of_le sound.once (mem_add.mpr (.inr inside))
  rw [CCheckQueue.execute]
  cases outcome : eval check with
  | some e =>
    refine sound.move (by simp) pending ?_ (.inr fun e' isE => ?_) fun _ => .inr ⟨own.1, rfl⟩
    · rw [held, ← cons_coe, ← cons_coe, cons_add, add_cons]
      exact cons_le_cons _ (add_le_add le_rfl (zero_le _))
    · exact .inr ⟨check, known, outcome.trans isE⟩
  | none =>
    refine sound.move (by simp) pending ?_ ⟨own.1, fun _ => rfl⟩ fun hc => ?_
    · rw [held, ← cons_coe, ← cons_coe, cons_add, add_cons]
      rfl
    rw [Thread.Carries, he] at hc
    obtain ⟨x, hm, hf⟩ := hc
    rcases mem_cons.mp hm with rfl | hm
    · rw [outcome] at hf
      cases hf
    · exact .inr ⟨x, hm, hf⟩

lemma Sound.execute (he : (q.threads t).phase = .executing doWork vChecks) :
  Sound eval (q.execute t eval doWork vChecks) := by
  cases doWork with
  | false => exact sound.leave he (.inl rfl)
  | true =>
    cases vChecks with
    | nil => exact sound.leave he (.inr rfl)
    | cons check rest => exact sound.evaluate he

lemma Sound.complete (ho : (q.threads none).phase = .outside) :
  Sound eval (q.setThread none ⟨.entering, 0, none⟩) := by
  have idle : ¬ (q.threads none).Carries eval := by rw [Thread.Carries, ho]; exact id
  exact sound.move (by simp) (by rw [Thread.pending, ho]; rfl) (add_le_add le_rfl (zero_le _))
    (.inl rfl) fun hc => absurd hc idle

lemma Sound.wake (hw : (q.threads t).phase = .waiting) :
  Sound eval { q.setThread t { q.threads t with phase := .seeking } with nIdle := q.nIdle - 1 } := by
  have idle : ¬ (q.threads t).Carries eval := by rw [Thread.Carries, hw]; exact id
  exact sound.move (by simp) (by rw [Thread.pending, hw]; rfl) (add_le_add le_rfl (zero_le _))
    trivial fun hc => absurd hc idle

end

lemma cleanUp_spec (q : CCheckQueue T R n) (t : ThreadId n) :
  ∃ thread, (q.cleanUp t).threads = update q.threads t thread ∧
    thread.phase = .seeking ∧ (q.cleanUp t).queue = q.queue ∧ (q.cleanUp t).added = q.added := by
  rw [CCheckQueue.cleanUp]
  split_ifs
  · exact ⟨_, rfl, rfl, rfl, rfl⟩
  · exact ⟨_, rfl, rfl, rfl, rfl⟩

/-- An event keeps the invariant, and what `Complete` returns is right. -/
lemma Sound.step (sound : Sound eval q) {event : Event T n} {out : Option (Option R)}
  (ok : q.step eval m event = some (q', out)) :
  Sound eval q' ∧ ∀ result, out = some result → Correct eval q.added result ∧ Finished q' := by
  cases event with
  | add vChecks =>
    rw [CCheckQueue.step] at ok
    split at ok
    · next ho =>
      obtain ⟨rfl, rfl⟩ := Prod.mk.inj (some.inj ok)
      exact ⟨sound.add ho vChecks, fun _ none => nomatch none⟩
    · cases ok
  | complete =>
    rw [CCheckQueue.step] at ok
    split at ok
    · next ho =>
      obtain ⟨rfl, rfl⟩ := Prod.mk.inj (some.inj ok)
      exact ⟨sound.complete ho, fun _ none => nomatch none⟩
    · cases ok
  | step t =>
    rw [CCheckQueue.step] at ok
    split at ok
    · next entering =>
      obtain ⟨thread, threads, hs, -, added⟩ := cleanUp_spec q t
      obtain ⟨next, hr⟩ := (sound.cleanUp entering).seek (t := t)
        (by rw [threads, update_self, hs]) m
      rw [some.inj ok, added] at hr
      rw [some.inj ok] at next
      exact ⟨next, hr⟩
    · next hw =>
      obtain ⟨next, hr⟩ := (sound.wake hw).seek (t := t) (by simp [CCheckQueue.setThread]) m
      rw [some.inj ok] at next hr
      exact ⟨next, hr⟩
    · next executing =>
      obtain ⟨rfl, rfl⟩ := Prod.mk.inj (some.inj ok)
      exact ⟨sound.execute executing, fun _ none => nomatch none⟩
    · cases ok

lemma run_keeps {P : CCheckQueue T R n → Prop}
  (hk : ∀ {q q' event out}, P q → q.step eval m event = some (q', out) → P q')
  (holds : P q) {events : List (Event T n)} (ran : q.run eval m events = some q') : P q' := by
  induction events generalizing q with
  | nil =>
    obtain rfl := some.inj ran
    exact holds
  | cons event rest ih =>
    rw [CCheckQueue.run, foldlM_cons] at ran
    obtain ⟨middle, first, hl⟩ := bind_eq_some_iff.mp ran
    obtain ⟨⟨middle', out⟩, ok, rfl⟩ := map_eq_some_iff.mp first
    exact ih (hk holds ok) hl

lemma Sound.run (sound : Sound eval q) {events : List (Event T n)}
  (ran : q.run eval m events = some q') : Sound eval q' :=
  run_keeps (fun sound ok => (sound.step ok).1) sound ran

end

variable {T R : Type} {n : ℕ} {eval : T → Option R} {m : ℕ} {q q' : CCheckQueue T R n}
  {t : ThreadId n} {thread : Thread T R}

/-- A thread that can move without a spurious wakeup. -/
def Prompt (q : CCheckQueue T R n) (t : ThreadId n) : Prop :=
  match (q.threads t).phase with
  | .entering | .executing _ _ => True
  | .waiting => t = none ∧ q.masterNotified = true
  | _ => False

variable (eval) (batchSize : ℕ) in
/-- `Complete` returns after some steps, none of them a spurious wakeup. -/
inductive Returns : CCheckQueue T R n → Prop
  | now {q q' : CCheckQueue T R n} {t : ThreadId n} {result : Option R} (prompt : Prompt q t)
      (ok : q.step eval batchSize (.step t) = some (q', some result)) : Returns q
  | later {q q' : CCheckQueue T R n} {t : ThreadId n} (prompt : Prompt q t)
      (ok : q.step eval batchSize (.step t) = some (q', none)) (rest : Returns q') : Returns q

/-- No thread is in the middle of a critical section. -/
def Settled (q : CCheckQueue T R n) : Prop := ∀ t, (q.threads t).phase ≠ .seeking

/-- The work that a thread has in front of it. -/
def Thread.work (thread : Thread T R) : ℕ :=
  match thread.phase with
  | .entering => 1
  | .executing _ vChecks => vChecks.length + 2
  | _ => 0

/-- A bound on the steps that are left. -/
def work (q : CCheckQueue T R n) : ℕ := 3 * q.queue.length + ∑ t, (q.threads t).work

lemma settled_update (hse : thread.phase ≠ .seeking)
  (ho : ∀ t', t' ≠ t → (q.threads t').phase ≠ .seeking)
  (ht : q'.threads = update q.threads t thread) : Settled q' := by
  intro t'
  rw [ht]
  by_cases hs : t' = t
  · rw [hs, update_self]
    exact hse
  · rw [update_of_ne hs]
    exact ho t' hs

/-- What the section from the `while` loop on does to the thread and to the work that is left. -/
lemma seek_spec (q : CCheckQueue T R n) (t : ThreadId n) (m : ℕ) :
  ∃ thread, (q.seek t m).1.threads = update q.threads t thread ∧
    thread.phase ≠ .seeking ∧ ((q.seek t m).2 = none → thread.phase ≠ .outside) ∧
    3 * (q.seek t m).1.queue.length + thread.work ≤ 3 * q.queue.length := by
  rw [CCheckQueue.seek]
  split
  · next empty =>
    split_ifs
    · exact ⟨_, rfl, by simp, by simp, by simp [Thread.work, CCheckQueue.setThread]⟩
    · exact ⟨_, rfl, by simp, by simp, by simp [Thread.work, CCheckQueue.setThread]⟩
  · next nonempty =>
    obtain ⟨hp, hb⟩ := q.batchCount_bounds m (by simpa using nonempty)
    refine ⟨_, rfl, by simp, by simp, ?_⟩
    simp only [Thread.work, length_take, length_drop]
    omega

variable (eval) in
lemma execute_spec {doWork : Bool} {vChecks : List T}
  (he : (q.threads t).phase = .executing doWork vChecks) :
  ∃ thread, (q.execute t eval doWork vChecks).threads = update q.threads t thread ∧
    thread.phase ≠ .seeking ∧ thread.phase ≠ .outside ∧
    (q.execute t eval doWork vChecks).queue = q.queue ∧ thread.work < (q.threads t).work := by
  have before : (q.threads t).work = vChecks.length + 2 := by rw [Thread.work, he]
  have leaves : ({ q.threads t with phase := .entering } : Thread T R).work < (q.threads t).work := by
    rw [before]
    change 1 < vChecks.length + 2
    omega
  cases doWork with
  | false => exact ⟨_, rfl, by simp, by simp, rfl, leaves⟩
  | true =>
    cases vChecks with
    | nil => exact ⟨_, rfl, by simp, by simp, rfl, leaves⟩
    | cons check rest =>
      refine ⟨_, rfl, ?_, ?_, rfl, ?_⟩
      · cases eval check <;> simp
      · cases eval check <;> simp
      · rw [before]
        cases eval check <;> simp [Thread.work]

lemma Settled.wake (hs : Settled q) (t : ThreadId n) (thread : Thread T R) :
  ∀ t', t' ≠ t → (update q.threads t thread t').phase ≠ .seeking := by
  intro t' ne
  rw [update_of_ne ne]
  exact hs t'

lemma Settled.step (hs : Settled q) {event : Event T n} {out : Option (Option R)}
  (ok : q.step eval m event = some (q', out)) : Settled q' := by
  cases event with
  | add vChecks =>
    rw [CCheckQueue.step] at ok
    split at ok
    · obtain ⟨rfl, -⟩ := Prod.mk.inj (some.inj ok)
      rw [CCheckQueue.add]
      split_ifs
      · exact hs
      · exact hs
    · cases ok
  | complete =>
    rw [CCheckQueue.step] at ok
    split at ok
    · obtain ⟨rfl, -⟩ := Prod.mk.inj (some.inj ok)
      exact settled_update (by simp) (fun t' _ => hs t') rfl
    · cases ok
  | step t =>
    rw [CCheckQueue.step] at ok
    split at ok
    · obtain ⟨middle, cleaned, -⟩ := cleanUp_spec q t
      obtain ⟨thread, threads, hse, -⟩ := seek_spec (q.cleanUp t) t m
      rw [some.inj ok] at threads
      exact settled_update hse (cleaned ▸ hs.wake t middle) threads
    · obtain ⟨thread, threads, hse, -⟩ := seek_spec
        { q.setThread t { q.threads t with phase := .seeking } with nIdle := q.nIdle - 1 } t m
      rw [some.inj ok] at threads
      exact settled_update hse (hs.wake t _) threads
    · next executing =>
      obtain ⟨rfl, -⟩ := Prod.mk.inj (some.inj ok)
      obtain ⟨thread, threads, hse, -⟩ := execute_spec eval executing
      exact settled_update hse (fun t' _ => hs t') threads
    · cases ok

lemma Settled.run (hs : Settled q) {events : List (Event T n)}
  (ran : q.run eval m events = some q') : Settled q' :=
  run_keeps (fun hs ok => hs.step ok) hs ran

/-- One thread changes, and with it the queue. -/
lemma work_update (ht : q'.threads = update q.threads t thread) :
  work q' + 3 * q.queue.length + (q.threads t).work =
    work q + 3 * q'.queue.length + thread.work := by
  have sums := sum_update Thread.work q.threads t thread
  rw [work, work, ht]
  omega

/-- The master is in `Complete` after another thread has moved, or itself without leaving. -/
lemma inside_of_update (hs : thread.phase ≠ .outside) (hi : (q.threads none).phase ≠ .outside) :
  (update q.threads t thread none).phase ≠ .outside := by
  by_cases hm : t = none
  · rwa [hm, update_self]
  · rwa [update_of_ne (Ne.symm hm)]

variable (eval m) in
/-- A thread that is neither outside nor waiting can move, and has less to do then. -/
lemma exists_step (busy : (q.threads t).work ≠ 0) : Prompt q t ∧ ∃ q' out,
  q.step eval m (.step t) = some (q', out) ∧ work q' < work q ∧
    (out = none → (q.threads none).phase ≠ .outside → (q'.threads none).phase ≠ .outside) := by
  cases phase : (q.threads t).phase with
  | outside | seeking | waiting =>
    rw [Thread.work, phase] at busy
    exact absurd rfl busy
  | entering =>
    have one : (q.threads t).work = 1 := by rw [Thread.work, phase]
    obtain ⟨middle, cleaned, hse, queue, -⟩ := cleanUp_spec q t
    obtain ⟨thread, threads, -, hs, less⟩ := seek_spec (q.cleanUp t) t m
    have none : middle.work = 0 := by rw [Thread.work, hse]
    have first := work_update cleaned
    have second := work_update threads
    rw [cleaned, update_self] at second
    refine ⟨by simp [Prompt, phase], ((q.cleanUp t).seek t m).1,
      ((q.cleanUp t).seek t m).2, by simp only [CCheckQueue.step, phase], ?_, ?_⟩
    · rw [queue] at first second less
      omega
    intro waits hi
    rw [threads]
    refine inside_of_update (hs waits) ?_
    rw [cleaned]
    exact inside_of_update (by simp [hse]) hi
  | executing doWork vChecks =>
    obtain ⟨thread, threads, -, hs, queue, less⟩ := execute_spec eval phase
    have eq := work_update threads
    refine ⟨by simp [Prompt, phase], q.execute t eval doWork vChecks, none,
      by simp only [CCheckQueue.step, phase], ?_, ?_⟩
    · rw [queue] at eq
      omega
    · intro _ hi
      rw [threads]
      exact inside_of_update hs hi

/-- While the master is in `Complete` the threads can always get it to return. -/
lemma Sound.returns (sound : Sound eval q) (hse : Settled q)
  (hi : (q.threads none).phase ≠ .outside) : Returns eval m q := by
  induction hb : work q using Nat.strong_induction_on generalizing q with
  | _ hb ih =>
    by_cases busy : ∃ t, (q.threads t).work ≠ 0
    · obtain ⟨t, busy⟩ := busy
      obtain ⟨prompt, q', out, ok, less, hs⟩ := exists_step eval m busy
      cases out with
      | some result => exact .now prompt ok
      | none =>
        exact .later prompt ok
          (ih (work q') (hb ▸ less) (sound.step ok).1 (hse.step ok) (hs rfl hi) rfl)
    push Not at busy
    -- Every thread waits, so there is nothing left to do and the master has been notified.
    have idle : ∀ t, (q.threads t).pending = 0 := by
      intro t
      have rests := busy t
      generalize q.threads t = thread at rests ⊢
      obtain ⟨phase, nNow, localResult⟩ := thread
      cases phase with
      | outside | seeking | waiting => rfl
      | entering => cases rests
      | executing => cases rests
    have waiting : (q.threads none).phase = .waiting := by
      have rests := busy none
      cases phase : (q.threads none).phase with
      | outside => exact absurd phase hi
      | seeking => exact absurd phase (hse _)
      | waiting => rfl
      | entering => simp [Thread.work, phase] at rests
      | executing => simp [Thread.work, phase] at rests
    obtain ⟨empty, notified⟩ := sound.notified waiting
    have zero : q.nTodo = 0 := by simp [sound.todo, empty, idle]
    obtain ⟨q', result, ok⟩ : ∃ q' result, q.step eval m (.step none) = some (q', some result) := by
      simp only [CCheckQueue.step, waiting, CCheckQueue.seek, CCheckQueue.setThread, empty, zero,
        and_self, if_true]
      exact ⟨_, _, rfl⟩
    exact .now (by simp [Prompt, waiting, notified zero]) ok

/-- A run of the queue: no check is evaluated twice; what `Complete` returns is an error of a check
of the same session if there is one, with nothing left behind; and once called it can return. -/
structure SessionsSound (eval : T → Option R) (batchSize : ℕ) (q : CCheckQueue T R n) : Prop where
  once : q.evaluated.Subperm q.added
  returned : ∀ event q' result, q.step eval batchSize event = some (q', some result) →
    Correct eval q.added result ∧ Finished q'
  returns : (q.threads none).phase ≠ .outside → Returns eval batchSize q

/-- Parallel checks are sound for every number of workers, batch size and interleaving. -/
theorem checkQueue_sessions (eval : T → Option R) (n batchSize : ℕ) (events : List (Event T n))
  (q : CCheckQueue T R n) (ran : (CCheckQueue.new T R n).run eval batchSize events = some q) :
  SessionsSound eval batchSize q := by
  have sound := (sound_new eval n).run ran
  have start : Settled (CCheckQueue.new T R n) := by
    intro t
    cases t <;> simp [CCheckQueue.new]
  refine ⟨?_, fun event q' result ok => (sound.step ok).2 result rfl, sound.returns (start.run ran)⟩
  rw [← coe_le]
  exact (le_add_right _ _).trans ((le_add_right _ _).trans sound.once)

/-- Two workers; the first one takes a batch and finds an error. -/
def failingSession : List (Event ℕ 2) :=
  [.add [0, 1, 2], .complete, .step (some 0), .step (some 0), .step (some 0), .step none]

theorem checkQueue_sessions_failingSession :
  ∃ q, (CCheckQueue.new ℕ ℕ 2).run (fun check => if check = 2 then some 7 else none) 4
      failingSession = some q ∧ q.result = some 7 ∧
    SessionsSound (fun check => if check = 2 then some 7 else none) 4 q := by
  obtain ⟨q, ran⟩ : ∃ q, (CCheckQueue.new ℕ ℕ 2).run
    (fun check => if check = 2 then some 7 else none) 4 failingSession = some q := ⟨_, rfl⟩
  have result : ((CCheckQueue.new ℕ ℕ 2).run (fun check => if check = 2 then some 7 else none) 4
    failingSession).map (·.result) = some (some 7) := by decide +kernel
  rw [ran] at result
  exact ⟨q, ran, Option.some.inj result, checkQueue_sessions _ 2 4 failingSession q ran⟩

end CheckQueue
