import Andaluzcoin.ChainIndex

/-!
# Version bits

The state of a deployment for a block is computed from the parent of the first block of its
period. `GetStateFor` walks back from there in steps of a period, to a state that is in the cache
or known by its time, and replays the transitions forward. Where the median time past does not
fall along the chain, the caches and results agree with the recursion over the periods.
-/

namespace VersionBits

open ParentTree ChainIndex Function Option Nat BlockChain
open BlockChain (before_refl before_none getAncestor_spec medianTime_le)

inductive ThresholdState
  | defined
  | started
  | lockedIn
  | active
  | failed
  deriving DecidableEq

/-- What a deployment asks for. -/
structure ThresholdConditionChecker (B : Type*) where
  condition : B → Bool
  beginTime : ℤ
  endTime : ℤ
  minActivationHeight : ℤ
  period : ℕ
  threshold : ℤ
  pos : 0 < period

def alwaysActive : ℤ := -1

def neverActive : ℤ := -2

/-- The states by the parent of the block they are for. -/
abbrev ThresholdConditionCache (B : Type*) := Option B → Option ThresholdState

section
variable {B : Type*} (chain : BlockChain B) (checker : ThresholdConditionChecker B)

/-- The parent of the first block of the period. -/
def periodParent (pindexPrev : Option B) : Option B :=
  pindexPrev.bind fun b => chain.getAncestor b
    (chain.nHeight b - ((chain.nHeight b + 1) % checker.period : ℕ))

/-- The last block of the previous period, from that of a period. -/
def previousPeriod (b : B) : Option B := chain.getAncestor b (chain.nHeight b - checker.period)

/-- The transition at the end of a period, with its last block. -/
def stateNext (state : ThresholdState) (pindexPrev : B) : ThresholdState :=
  match state with
  | .defined =>
    if checker.beginTime ≤ chain.getMedianTimePast pindexPrev then .started else .defined
  | .started =>
    let count := (trail chain.pprev checker.period pindexPrev).countP checker.condition
    if checker.threshold ≤ count then .lockedIn
    else if checker.endTime ≤ chain.getMedianTimePast pindexPrev then .failed
    else .started
  | .lockedIn =>
    if checker.minActivationHeight ≤ chain.nHeight pindexPrev + 1 then .active else .lockedIn
  | .failed => .failed
  | .active => .active

variable [DecidableEq B]

/-- Walk backwards in steps of a period to a block whose state is known. The blocks to compute
are left on a stack. -/
def walkBack : ℕ → ThresholdConditionCache B → Option B → List B →
  ThresholdConditionCache B × Option B × List B
  | 0, cache, pindexPrev, vToCompute => (cache, pindexPrev, vToCompute)
  | fuel + 1, cache, pindexPrev, vToCompute =>
    if (cache pindexPrev).isSome then (cache, pindexPrev, vToCompute)
    else match pindexPrev with
      | none => (update cache none (some .defined), none, vToCompute)
      | some b =>
        if chain.getMedianTimePast b < checker.beginTime then
          (update cache (some b) (some .defined), some b, vToCompute)
        else walkBack fuel cache (previousPeriod chain checker b) (b :: vToCompute)

/-- Walk forward and compute the states of the blocks on the stack. -/
def replay : List B → ThresholdState → ThresholdConditionCache B →
  ThresholdState × ThresholdConditionCache B
  | [], state, cache => (state, cache)
  | b :: vToCompute, state, cache =>
    let state := stateNext chain checker state b
    replay vToCompute state (update cache (some b) (some state))

/-- The state for the block after a parent. There is none if the state that the walk stops at is
not in the cache. -/
def getStateFor (pindexPrev : Option B) (cache : ThresholdConditionCache B) :
  Option (ThresholdState × ThresholdConditionCache B) :=
  if checker.beginTime = alwaysActive then some (.active, cache)
  else if checker.beginTime = neverActive then some (.failed, cache)
  else
    let pindexPrev := periodParent chain checker pindexPrev
    let (cache, pindexPrev, vToCompute) :=
      walkBack chain checker (chain.heightAfter pindexPrev + 1) cache pindexPrev []
    (cache pindexPrev).map fun state => replay chain checker vToCompute state cache

/-- Step back as long as the state is that of the period before. -/
def sinceLoop (initialState : ThresholdState) : ℕ → B → ThresholdConditionCache B →
  Option (B × ThresholdConditionCache B)
  | 0, pindexPrev, cache => some (pindexPrev, cache)
  | fuel + 1, pindexPrev, cache =>
    match previousPeriod chain checker pindexPrev with
    | none => some (pindexPrev, cache)
    | some previousPeriodParent =>
      (getStateFor chain checker (some previousPeriodParent) cache).bind fun (state, cache) =>
        if state = initialState then sinceLoop initialState fuel previousPeriodParent cache
        else some (pindexPrev, cache)

/-- The height since when the state has been that of the block after a parent. -/
def getStateSinceHeightFor (pindexPrev : Option B) (cache : ThresholdConditionCache B) :
  Option (ℕ × ThresholdConditionCache B) :=
  if checker.beginTime = alwaysActive ∨ checker.beginTime = neverActive then some (0, cache)
  else (getStateFor chain checker pindexPrev cache).bind fun (initialState, cache) =>
    if initialState = .defined then some (0, cache)
    else (periodParent chain checker pindexPrev).bind fun pindexPrev =>
      (sinceLoop chain checker initialState (chain.nHeight pindexPrev + 1) pindexPrev cache).map
        fun (pindexPrev, cache) => (chain.nHeight pindexPrev + 1, cache)

end

section
variable {B : Type*} {C : BlockChain B} {c : ThresholdConditionChecker B} {p q q' : Option B}

lemma periodParent_spec (C : BlockChain B) (c : ThresholdConditionChecker B) (p : Option B) :
  C.Before (periodParent C c p) p ∧
  C.heightAfter (periodParent C c p) = C.heightAfter p - C.heightAfter p % c.period := by
  cases p with
  | none => exact ⟨before_none _, by simp [periodParent, heightAfter]⟩
  | some b =>
    have le : (C.nHeight b + 1) % c.period ≤ C.nHeight b + 1 := mod_le ..
    have spec := getAncestor_spec C b (sub_le (C.nHeight b + 1) ((C.nHeight b + 1) % c.period))
    rw [show ((C.nHeight b + 1 - (C.nHeight b + 1) % c.period : ℕ) : ℤ) - 1 =
      C.nHeight b - ((C.nHeight b + 1) % c.period : ℕ) by omega] at spec
    exact spec

lemma heightAfter_previousPeriod (C : BlockChain B) (c : ThresholdConditionChecker B)
  (b : B) : C.Before (previousPeriod C c b) (some b) ∧
    C.heightAfter (previousPeriod C c b) = C.nHeight b + 1 - c.period := by
  have pos := c.pos
  rcases le_or_gt c.period (C.nHeight b + 1) with whole | short
  · have spec := getAncestor_spec C b (sub_le (C.nHeight b + 1) c.period)
    rwa [show ((C.nHeight b + 1 - c.period : ℕ) : ℤ) - 1 = C.nHeight b - c.period by omega] at spec
  have none_ : previousPeriod C c b = none := by
    rw [previousPeriod, BlockChain.getAncestor, if_pos (by omega)]
  rw [none_]
  exact ⟨before_none _, by simp [heightAfter]; omega⟩

end

section
variable {B : Type*} (chain : BlockChain B) (checker : ThresholdConditionChecker B)
  {target : Option B} {cache : ThresholdConditionCache B}

/-- The state of a period by that of the previous one, from the parent of its first block. -/
def periodState : Option B → ThresholdState
  | none => .defined
  | some b => stateNext chain checker (periodState (previousPeriod chain checker b)) b
termination_by p => chain.heightAfter p
decreasing_by
  have pos := checker.pos
  rw [(heightAfter_previousPeriod chain checker b).2]
  change _ < chain.nHeight b + 1
  omega

/-- The state for the block after a parent, without a cache. -/
def stateFor (pindexPrev : Option B) : ThresholdState :=
  if checker.beginTime = alwaysActive then .active
  else if checker.beginTime = neverActive then .failed
  else periodState chain checker (periodParent chain checker pindexPrev)

/-- All states in the cache are those of their periods. -/
def Consistent (cache : ThresholdConditionCache B) : Prop :=
  ∀ p state, cache p = some state → state = periodState chain checker p

variable {chain checker}

lemma periodState_some (b : B) : periodState chain checker (some b) =
  stateNext chain checker (periodState chain checker (previousPeriod chain checker b)) b := by
  rw [periodState]

lemma periodState_early (hno : chain.TimeNondecreasing) {b : B}
  (he : chain.getMedianTimePast b < checker.beginTime) :
  periodState chain checker (some b) = .defined := by
  induction hn : chain.nHeight b using Nat.strong_induction_on generalizing b with
  | _ n ih =>
    have before : periodState chain checker (previousPeriod chain checker b) = .defined := by
      obtain ⟨before, height⟩ := heightAfter_previousPeriod chain checker b
      cases previous : previousPeriod chain checker b with
      | none => rw [periodState]
      | some a =>
        rw [previous] at before height
        obtain ⟨b', eq, ha⟩ := before a rfl
        obtain rfl := Option.some.inj eq
        have pos := checker.pos
        change chain.nHeight a + 1 = _ at height
        exact ih (chain.nHeight a) (by omega) ((medianTime_le hno ha).trans_lt he) rfl
    rw [periodState_some, before, stateNext, if_neg (not_le.mpr he)]

variable [DecidableEq B]

lemma Consistent.update (hc : Consistent chain checker cache) (p : Option B) :
  Consistent chain checker (update cache p (some (periodState chain checker p))) := by
  intro q state hf
  by_cases hs : q = p
  · rw [hs, update_self] at hf
    rw [hs, Option.some.inj hf]
  · rw [update_of_ne hs] at hf
    exact hc q state hf

variable (chain checker) in
/-- The blocks on the stack are those of consecutive periods, up from a known one. -/
inductive Stacked : Option B → List B → Option B → Prop
  | nil (p : Option B) : Stacked p [] p
  | cons {b : B} {rest : List B} {p : Option B} (next : Stacked (some b) rest p) :
      Stacked (previousPeriod chain checker b) (b :: rest) p

/-- The walk back ends at a known state. -/
lemma walkBack_spec (hn : chain.TimeNondecreasing) : ∀ (fuel : ℕ)
  (cache : ThresholdConditionCache B) (p : Option B) (stack : List B),
  Consistent chain checker cache → Stacked chain checker p stack target →
  chain.heightAfter p < fuel →
  ∃ cache' p' stack', walkBack chain checker fuel cache p stack = (cache', p', stack') ∧
    Consistent chain checker cache' ∧ Stacked chain checker p' stack' target ∧
    cache' p' = some (periodState chain checker p') := by
  intro fuel
  induction fuel with
  | zero => exact fun _ _ _ _ _ below => absurd below (not_lt_zero _)
  | succ fuel ih =>
    intro cache p stack hc stacked below
    rw [walkBack.eq_def]
    dsimp only
    split_ifs with hk
    · obtain ⟨state, hf⟩ := isSome_iff_exists.mp hk
      refine ⟨cache, p, stack, rfl, hc, stacked, ?_⟩
      rw [hf, hc p state hf]
    cases p with
    | none =>
      have updated := hc.update none
      rw [periodState] at updated
      refine ⟨_, none, stack, rfl, updated, stacked, ?_⟩
      rw [update_self, periodState]
    | some b =>
      dsimp only
      split_ifs with early
      · have isDefined := periodState_early hn early
        have updated := hc.update (some b)
        rw [isDefined] at updated
        refine ⟨_, some b, stack, rfl, updated, stacked, ?_⟩
        rw [update_self, isDefined]
      · refine ih cache _ (b :: stack) hc (.cons stacked) ?_
        have pos := checker.pos
        have height := (heightAfter_previousPeriod chain checker b).2
        change chain.nHeight b + 1 < fuel + 1 at below
        omega

/-- The replay computes the states of the stack. -/
lemma replay_spec {p : Option B} {stack : List B} (stacked : Stacked chain checker p stack target)
  (hc : Consistent chain checker cache) :
  (replay chain checker stack (periodState chain checker p) cache).1 =
      periodState chain checker target ∧ Consistent chain checker
      (replay chain checker stack (periodState chain checker p) cache).2 := by
  induction stacked generalizing cache with
  | nil p => exact ⟨rfl, hc⟩
  | @cons b rest target _ ih =>
    rw [replay, ← periodState_some]
    exact ih (hc.update (some b))

/-- With any consistent cache, the result is that of the recursion. -/
lemma getStateFor_spec (hn : chain.TimeNondecreasing) (p : Option B)
  (hc : Consistent chain checker cache) :
  ∃ cache', getStateFor chain checker p cache = some (stateFor chain checker p, cache') ∧
    Consistent chain checker cache' := by
  rw [getStateFor, stateFor]
  split_ifs
  · exact ⟨cache, rfl, hc⟩
  · exact ⟨cache, rfl, hc⟩
  · obtain ⟨cache', p', stack, walk, hc', stacked, hk⟩ := walkBack_spec hn
      (chain.heightAfter (periodParent chain checker p) + 1) cache (periodParent chain checker p)
      [] hc (.nil _) (lt_succ_self _)
    obtain ⟨state, after⟩ := replay_spec stacked hc'
    refine ⟨_, ?_, after⟩
    simp only [walk, hk, map_some, ← state]

variable (chain checker) in
/-- The caches that calls of `GetStateFor` leave behind, from an empty one. -/
inductive Reached : ThresholdConditionCache B → Prop
  | empty : Reached fun _ => none
  | call {cache cache' : ThresholdConditionCache B} {state : ThresholdState} (p : Option B)
      (reached : Reached cache)
      (called : getStateFor chain checker p cache = some (state, cache')) : Reached cache'

lemma Reached.consistent (hn : chain.TimeNondecreasing) (reached : Reached chain checker cache) :
  Consistent chain checker cache := by
  induction reached with
  | empty => exact fun _ _ hf => by cases hf
  | call p _ hca ih =>
    obtain ⟨cache', hc', hc⟩ := getStateFor_spec hn p ih
    rw [hc'] at hca
    cases hca
    exact hc

end

section
variable {B : Type*} {C : BlockChain B} {c : ThresholdConditionChecker B} {p q : Option B} {b : B}

section
variable (before : C.Before q p) (hs : C.heightAfter q / c.period = C.heightAfter p / c.period)
include before hs

lemma periodParent_eq : periodParent C c q = periodParent C c p := by
  obtain ⟨hbq, heightQ⟩ := periodParent_spec C c q
  obtain ⟨beforeP, heightP⟩ := periodParent_spec C c p
  refine (hbq.trans before).eq_of_heightAfter beforeP ?_
  have divQ := div_add_mod (C.heightAfter q) c.period
  have divP := div_add_mod (C.heightAfter p) c.period
  rw [hs] at divQ
  omega

lemma stateFor_eq : stateFor C c q = stateFor C c p := by
  rw [stateFor, stateFor, periodParent_eq before hs]

end

lemma pprev_spec (C : BlockChain B) (b : B) : C.Before (C.pprev b) (some b) ∧
  C.heightAfter (C.pprev b) = C.nHeight b := by
  cases edge : C.pprev b with
  | none => exact ⟨before_none _, (C.genesis b edge).symm⟩
  | some a =>
    refine ⟨fun a' eq => ⟨b, rfl, ?_⟩, (C.graded b a edge).symm⟩
    exact Option.some.inj eq ▸ .of_parent edge

lemma stateFor_end (hu : c.beginTime ≠ alwaysActive ∧ c.beginTime ≠ neverActive)
  (last : c.period ∣ C.nHeight b + 1) :
  stateFor C c (some b) = stateNext C c (stateFor C c (C.pprev b)) b := by
  have pos := c.pos
  obtain ⟨beforeB, heightB⟩ := periodParent_spec C c (some b)
  obtain ⟨beforeA, heightA⟩ := periodParent_spec C c (C.pprev b)
  obtain ⟨before, height⟩ := pprev_spec C b
  obtain ⟨hb', height'⟩ := heightAfter_previousPeriod C c b
  have own : periodParent C c (some b) = some b := by
    refine beforeB.eq_of_heightAfter (before_refl _) ?_
    rw [heightB]
    change C.nHeight b + 1 - (C.nHeight b + 1) % c.period = C.nHeight b + 1
    rw [mod_eq_zero_of_dvd last, Nat.sub_zero]
  have previous : periodParent C c (C.pprev b) = previousPeriod C c b := by
    refine (beforeA.trans before).eq_of_heightAfter hb' ?_
    obtain ⟨_ | k, multiple⟩ := last
    · simp at multiple
    have split : C.nHeight b = c.period * k + (c.period - 1) := by
      rw [mul_add, mul_one] at multiple
      omega
    rw [heightA, height, height', split, mul_add_mod, mod_eq_of_lt (by omega)]
    omega
  rw [stateFor, stateFor, if_neg hu.1, if_neg hu.2, if_neg hu.1, if_neg hu.2, own,
    previous, periodState_some]

lemma stateFor_special (special : c.beginTime = alwaysActive ∨ c.beginTime = neverActive)
  (p q : Option B) : stateFor C c p = stateFor C c q := by
  rw [stateFor, stateFor]
  rcases special with always | never
  · rw [if_pos always, if_pos always]
  · rw [if_pos never, if_pos never]

/-- From a block to the next one the state changes only at the end of a period. -/
lemma stateFor_step (C : BlockChain B) (c : ThresholdConditionChecker B) (b : B) :
  stateFor C c (some b) = stateFor C c (C.pprev b) ∨
  (c.period ∣ C.nHeight b + 1 ∧ stateFor C c (some b) =
    stateNext C c (stateFor C c (C.pprev b)) b) := by
  obtain ⟨before, height⟩ := pprev_spec C b
  by_cases special : c.beginTime = alwaysActive ∨ c.beginTime = neverActive
  · exact .inl (stateFor_special special _ _)
  rw [not_or] at special
  by_cases last : c.period ∣ C.nHeight b + 1
  · exact .inr ⟨last, stateFor_end special last⟩
  left
  refine (stateFor_eq before ?_).symm
  rw [height]
  change _ = (C.nHeight b + 1) / c.period
  rw [succ_div_of_not_dvd last]

lemma stateFor_later {P : ThresholdState → Prop}
  (keeps : ∀ state b, P state → P (stateNext C c state b))
  (before : C.Before q p) (start : P (stateFor C c q)) : P (stateFor C c p) := by
  induction hn : C.heightAfter p using Nat.strong_induction_on generalizing p with
  | _ n ih =>
    by_cases hs : q = p
    · exact hs ▸ start
    cases p with
    | none =>
      have low := before.heightAfter_le
      exact absurd (before.eq_of_heightAfter (before_refl _) (le_zero.mp low)) hs
    | some b =>
      obtain ⟨hb', height⟩ := pprev_spec C b
      have lower : C.heightAfter q ≠ C.nHeight b + 1 := fun eq =>
        hs (before.eq_of_heightAfter (before_refl _) eq)
      have le : C.heightAfter q ≤ C.nHeight b + 1 := before.heightAfter_le
      have earlier := before.of_heightAfter_le hb' (by omega)
      have shorter : C.heightAfter (C.pprev b) < n := by
        rw [height, ← hn]
        exact lt_succ_self _
      have atParent := ih _ shorter earlier rfl
      rcases stateFor_step C c b with hk | ⟨-, next⟩
      · rw [hk]
        exact atParent
      · rw [next]
        exact keeps _ b atParent

lemma stateFor_absorbing (before : C.Before q p)
  (hf : stateFor C c q = .failed ∨ stateFor C c q = .active) : stateFor C c p = stateFor C c q := by
  refine stateFor_later (P := fun state => state = stateFor C c q) ?_ before rfl
  rintro _ b rfl
  rcases hf with hf | hf
  · rw [hf, stateNext]
  · rw [hf, stateNext]

/-- The first state is not entered again. -/
lemma stateFor_defined (before : C.Before q p)
  (hd : stateFor C c p = .defined) : stateFor C c q = .defined := by
  by_contra begun
  refine stateFor_later (P := fun state => state ≠ .defined) ?_ before begun hd
  intro state b
  cases state with
  | defined => exact fun no => absurd rfl no
  | active | failed => exact id
  | _ =>
    intro _
    rw [stateNext]
    split_ifs <;> simp

variable (C c) in
/-- Signalling blocks of the period that ends with a block. -/
def signalling (b : B) : ℕ := (trail C.pprev c.period b).countP c.condition

lemma stateFor_lockedIn (he : stateFor C c (some b) = .lockedIn)
  (new : stateFor C c (C.pprev b) ≠ .lockedIn) :
  stateFor C c (C.pprev b) = .started ∧ c.period ∣ C.nHeight b + 1 ∧
    c.threshold ≤ signalling C c b := by
  rcases stateFor_step C c b with hk | ⟨last, next⟩
  · exact absurd (hk.symm.trans he) new
  rw [he] at next
  generalize stateFor C c (C.pprev b) = state at new next
  cases state with
  | started =>
    refine ⟨rfl, last, ?_⟩
    by_contra few
    rw [signalling] at few
    simp only [stateNext, if_neg few] at next
    split_ifs at next
  | lockedIn => exact absurd rfl new
  | defined =>
    rw [stateNext] at next
    split_ifs at next
  | active | failed => cases next

lemma stateFor_active (he : stateFor C c (some b) = .active)
  (new : stateFor C c (C.pprev b) ≠ .active) :
  stateFor C c (C.pprev b) = .lockedIn ∧ c.minActivationHeight ≤ C.nHeight b + 1 := by
  rcases stateFor_step C c b with hk | ⟨last, next⟩
  · exact absurd (hk.symm.trans he) new
  rw [he] at next
  generalize stateFor C c (C.pprev b) = state at new next
  cases state with
  | lockedIn =>
    rw [stateNext] at next
    split_ifs at next with hh
    exact ⟨rfl, hh⟩
  | active => exact absurd rfl new
  | failed => cases next
  | _ =>
    rw [stateNext] at next
    split_ifs at next

variable [DecidableEq B] {initial : ThresholdState}

variable (C c) in
/-- From the first block of a period on, up to the block after `p`, the state is the given one. -/
def HoldsSince (p : Option B) (state : ThresholdState) (since : ℕ) : Prop :=
  c.period ∣ since ∧ ∀ q, C.Before q p → since ≤ C.heightAfter q → stateFor C c q = state

variable (C c) in
/-- The block before is in another state. -/
def Maximal (p : Option B) (state : ThresholdState) (since : ℕ) : Prop :=
  ∀ q, C.Before q p → C.heightAfter q + 1 = since → stateFor C c q ≠ state

omit [DecidableEq B] in
lemma stateFor_within {q' : Option B} (before : C.Before q p) (hb' : C.Before q' p)
  (first : c.period ∣ C.heightAfter q) (le : C.heightAfter q ≤ C.heightAfter q')
  (lt : C.heightAfter q' < C.heightAfter q + c.period) : stateFor C c q' = stateFor C c q := by
  refine (stateFor_eq (before.of_heightAfter_le hb' le) ?_).symm
  obtain ⟨k, multiple⟩ := first
  rw [multiple] at le lt ⊢
  rw [Nat.mul_div_cancel_left k c.pos]
  refine (Nat.div_eq_of_lt_le ?_ ?_).symm
  · rwa [mul_comm]
  · rw [add_mul, one_mul, mul_comm]
    exact lt

lemma sinceLoop_spec (hn : C.TimeNondecreasing)
  (hu : c.beginTime ≠ alwaysActive ∧ c.beginTime ≠ neverActive)
  (hb : initial ≠ .defined) : ∀ (fuel : ℕ) (b : B) (cache : ThresholdConditionCache B),
  Consistent C c cache → C.Before (some b) p → C.nHeight b < fuel →
  HoldsSince C c p initial (C.nHeight b + 1) →
  ∃ a cache', sinceLoop C c initial fuel b cache = some (a, cache') ∧
    Consistent C c cache' ∧ C.Before (some a) p ∧ HoldsSince C c p initial (C.nHeight a + 1) ∧
    Maximal C c p initial (C.nHeight a + 1) := by
  have pos := c.pos
  intro fuel
  induction fuel with
  | zero => exact fun _ _ _ _ below => absurd below (not_lt_zero _)
  | succ fuel ih =>
    intro b cache hc before below hho
    obtain ⟨hb', height⟩ := heightAfter_previousPeriod C c b
    have whole : c.period ≤ C.nHeight b + 1 := le_of_dvd (succ_pos _) hho.1
    have first : c.period ∣ C.heightAfter (previousPeriod C c b) := by
      rw [height]
      exact dvd_sub hho.1 (dvd_refl _)
    have within : ∀ q, C.Before q p → C.heightAfter (previousPeriod C c b) ≤
      C.heightAfter q → C.heightAfter q < C.nHeight b + 1 →
      stateFor C c q = stateFor C c (previousPeriod C c b) :=
      fun q hbq le lt => stateFor_within (hb'.trans before) hbq first le (by omega)
    rw [sinceLoop]
    cases previous : previousPeriod C c b with
    | none =>
      rw [previous] at within height
      refine ⟨b, cache, rfl, hc, before, hho, fun q hbq eq => ?_⟩
      have isDefined : stateFor C c none = .defined := by
        rw [stateFor, if_neg hu.1, if_neg hu.2, periodParent, bind_none, periodState]
      rw [within q hbq (zero_le _) (by omega), isDefined]
      exact hb.symm
    | some a =>
      rw [previous] at within height hb' first
      obtain ⟨cache', hca, hc'⟩ := getStateFor_spec hn (some a) hc
      have heightA : C.nHeight a + 1 = C.nHeight b + 1 - c.period := height
      dsimp only
      rw [hca, bind_some]
      dsimp only
      split_ifs with hs
      · refine ih a cache' hc' (hb'.trans before) (by omega) ⟨first, ?_⟩
        intro q hbq le
        rcases lt_or_ge (C.heightAfter q) (C.nHeight b + 1) with lower | hh
        · rw [within q hbq le lower, hs]
        · exact hho.2 q hbq hh
      · refine ⟨b, cache', rfl, hc', before, hho, fun q hbq eq => ?_⟩
        rw [within q hbq (by change C.nHeight a + 1 ≤ _; omega) (by omega)]
        exact hs

lemma getStateSinceHeightFor_spec (hn : C.TimeNondecreasing) (p : Option B)
  {cache : ThresholdConditionCache B} (hc : Consistent C c cache) :
  ∃ since cache', getStateSinceHeightFor C c p cache = some (since, cache') ∧
    since ≤ C.heightAfter p ∧ HoldsSince C c p (stateFor C c p) since ∧
    Maximal C c p (stateFor C c p) since := by
  rw [getStateSinceHeightFor]
  split_ifs with special
  · exact ⟨0, cache, rfl, zero_le _, ⟨dvd_zero _, fun q _ _ => stateFor_special special q p⟩,
      fun q _ eq => by cases eq⟩
  rw [not_or] at special
  obtain ⟨cache', hca, hc'⟩ := getStateFor_spec hn p hc
  rw [hca, bind_some]
  dsimp only
  split_ifs with hd
  · refine ⟨0, cache', rfl, zero_le _, ⟨dvd_zero _, fun q before _ => ?_⟩,
      fun q _ eq => by cases eq⟩
    rw [hd, stateFor_defined before hd]
  obtain ⟨before, height⟩ := periodParent_spec C c p
  cases first : periodParent C c p with
  | none =>
    refine absurd ?_ hd
    rw [stateFor, if_neg special.1, if_neg special.2, first, periodState]
  | some b =>
    rw [first] at before height
    change C.nHeight b + 1 = _ at height
    have start : HoldsSince C c p (stateFor C c p) (C.nHeight b + 1) := by
      have pos := c.pos
      have rest := mod_lt (C.heightAfter p) pos
      have le := mod_le (C.heightAfter p) c.period
      have firstOf : c.period ∣ C.nHeight b + 1 := by
        rw [height]
        exact dvd_sub_mod _
      have within : ∀ q, C.Before q p → C.nHeight b + 1 ≤ C.heightAfter q →
        stateFor C c q = stateFor C c (some b) := by
        intro q hbq hl
        have bound := hbq.heightAfter_le
        refine stateFor_within before hbq firstOf hl ?_
        change _ < C.nHeight b + 1 + _
        omega
      refine ⟨firstOf, fun q hbq hl => ?_⟩
      rw [within q hbq hl, within p (before_refl p) (by omega)]
    obtain ⟨a, cache'', loop, -, beforeA, hh, maximal⟩ := sinceLoop_spec hn
      special hd (C.nHeight b + 1) b cache' hc' before
      (lt_succ_self _) start
    refine ⟨_, cache'', ?_, beforeA.heightAfter_le, hh, maximal⟩
    rw [bind_some, loop]
    rfl

end

variable {B : Type*} [DecidableEq B] {chain : BlockChain B}
  {checker : ThresholdConditionChecker B} {cache : ThresholdConditionCache B}

/-- With any cache that earlier calls have left, the states are those of the recursion over the
periods, and the height since when is that of the first block of the run. All blocks of a period
have one state, the last states are never left, and the way there leads through a signalled period
and the activation height. -/
theorem thresholdState_correct (nondecreasing : chain.TimeNondecreasing)
  (reached : Reached chain checker cache) :
  (∀ p, ∃ cache', getStateFor chain checker p cache = some (stateFor chain checker p, cache')) ∧
    (∀ q p, chain.Before q p →
      chain.heightAfter q / checker.period = chain.heightAfter p / checker.period →
      stateFor chain checker q = stateFor chain checker p) ∧ (∀ q p, chain.Before q p →
      stateFor chain checker q = .failed ∨ stateFor chain checker q = .active →
      stateFor chain checker p = stateFor chain checker q) ∧
    (∀ b, stateFor chain checker (some b) = .lockedIn →
      stateFor chain checker (chain.pprev b) ≠ .lockedIn →
      stateFor chain checker (chain.pprev b) = .started ∧ checker.period ∣ chain.nHeight b + 1 ∧
        checker.threshold ≤ signalling chain checker b) ∧
    (∀ b, stateFor chain checker (some b) = .active →
      stateFor chain checker (chain.pprev b) ≠ .active →
      stateFor chain checker (chain.pprev b) = .lockedIn ∧
        checker.minActivationHeight ≤ chain.nHeight b + 1) ∧
    ∀ p, ∃ since cache', getStateSinceHeightFor chain checker p cache = some (since, cache') ∧
      since ≤ chain.heightAfter p ∧ HoldsSince chain checker p (stateFor chain checker p) since ∧
      Maximal chain checker p (stateFor chain checker p) since := by
  have consistent := reached.consistent nondecreasing
  refine ⟨fun p => ?_, fun q p => stateFor_eq, fun q p => stateFor_absorbing,
    fun b => stateFor_lockedIn, fun b => stateFor_active,
    fun p => getStateSinceHeightFor_spec nondecreasing p consistent⟩
  obtain ⟨cache', hc, -⟩ := getStateFor_spec nondecreasing p consistent
  exact ⟨cache', hc⟩

/-- Four blocks in a row. -/
def fourBlocks : BlockChain (Fin 4) where
  pprev b := if h : b = 0 then none else some (b.pred h).castSucc
  nHeight b := b
  nTime b := 600 * b
  graded := by
    unfold Graded
    decide
  genesis := by decide

/-- A deployment that every block signals, in periods of two blocks. -/
def everyBlock : ThresholdConditionChecker (Fin 4) where
  condition _ := true
  beginTime := 0
  endTime := 10000
  minActivationHeight := 0
  period := 2
  threshold := 2
  pos := by decide

theorem thresholdState_correct_fourBlocks : stateFor fourBlocks everyBlock (some 3) = .lockedIn ∧
    ∃ state cache cache', getStateFor fourBlocks everyBlock (some 1) (fun _ => none)
        = some (state, cache) ∧
      getStateFor fourBlocks everyBlock (some 3) cache = some (.lockedIn, cache') := by
  have nondecreasing : fourBlocks.TimeNondecreasing := by
    unfold BlockChain.TimeNondecreasing
    decide
  have state : stateFor fourBlocks everyBlock (some 3) = .lockedIn := by
    have parent : periodParent fourBlocks everyBlock (some 3) = some 3 := by decide
    have first : previousPeriod fourBlocks everyBlock 3 = some 1 := by decide
    have second : previousPeriod fourBlocks everyBlock 1 = none := by decide
    rw [stateFor, parent, periodState_some, first, periodState_some, second, periodState]
    decide
  obtain ⟨results, -⟩ := thresholdState_correct nondecreasing
    (.empty : Reached fourBlocks everyBlock fun _ => none)
  obtain ⟨cache, first⟩ := results (some 1)
  obtain ⟨results, -⟩ := thresholdState_correct nondecreasing (Reached.empty.call (some 1) first)
  obtain ⟨cache', second⟩ := results (some 3)
  rw [state] at second
  exact ⟨state, _, cache, cache', first, second⟩

end VersionBits
