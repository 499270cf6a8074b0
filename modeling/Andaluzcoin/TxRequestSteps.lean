import Andaluzcoin.TxRequestInvariant

/-!
# The functions of the request tracker

What each function does to the announcements. Where a candidate becomes the best one of its hash the
others do not change, so the functions are described up to this difference: `blur` makes the best
candidate one that is ready.
-/

namespace TxRequest

open OrderedIndex Multiset Tracker Announcement State

section
variable {H P : Type} {ann b : Announcement H P} {state : State}

/-- Forget whether a candidate is the best one. -/
def Announcement.blur (ann : Announcement H P) : Announcement H P :=
  if ann.state = .candidateBest then ann.setState .candidateReady else ann

/-- The announcements up to which candidates are the best ones. -/
def blurred (M : Multiset (Announcement H P)) : Multiset (Announcement H P) :=
  M.map Announcement.blur

@[simp] lemma blurred_cons (ann : Announcement H P) (M : Multiset (Announcement H P)) :
  blurred (ann ::ₘ M) = ann.blur ::ₘ blurred M := map_cons _ _ _

lemma blur_of_ne (ne : ann.state ≠ .candidateBest) : ann.blur = ann := if_neg ne

lemma blur_setState_of_ne (ann : Announcement H P) (ne : state ≠ .candidateBest) :
  (ann.setState state).blur = ann.setState state := if_neg ne

lemma blur_setState_best (ann : Announcement H P) :
  (ann.setState .candidateBest).blur = ann.setState .candidateReady := if_pos rfl

lemma blur_best (best : ann.state = .candidateBest) :
  ann.blur = ann.setState .candidateReady := if_pos best

lemma setState_self (eq : ann.state = state) : ann.setState state = ann := by
  subst eq
  rfl

lemma selected_value (hs : b.isSelected = true) : 2 ≤ b.state.value ∧ b.state.value ≤ 3 := by
  rcases (isSelected_iff b).mp hs with state | state <;> simp [state, value]

lemma selected_of_value (low : 2 ≤ b.state.value) (hh : b.state.value ≤ 3) :
  b.isSelected = true := by
  cases state : b.state <;> simp [value, state, isSelected] at low hh ⊢

end

section
variable {H P : Type} [LinearOrder H] {pc : PriorityComputer H P} {a b c : Announcement H P}

lemma byTxHashView_le : byTxHashView pc a ≤ byTxHashView pc b ↔
    a.txhash < b.txhash ∨ a.txhash = b.txhash ∧ (a.state.value < b.state.value ∨
      a.state.value = b.state.value ∧
        (if a.state = .candidateReady then pc.ofAnn a else 0) ≤
          if b.state = .candidateReady then pc.ofAnn b else 0) := by
  rw [byTxHashView, byTxHashView, Prod.Lex.toLex_le_toLex, Prod.Lex.toLex_le_toLex]

section
variable (le : byTxHashView pc a ≤ byTxHashView pc b)
include le

lemma txhash_le_of_view_le : a.txhash ≤ b.txhash := by
  rcases byTxHashView_le.mp le with less | ⟨hs, -⟩
  · exact less.le
  · exact hs.le

lemma state_le_of_view_le (hs : a.txhash = b.txhash) : a.state.value ≤ b.state.value := by
  rcases byTxHashView_le.mp le with less | ⟨-, less | ⟨eq, -⟩⟩
  · exact absurd less (hs ▸ lt_irrefl _)
  · exact less.le
  · exact eq.le

lemma priority_le_of_view_le (hs : a.txhash = b.txhash) (hra : a.state = .candidateReady)
  (hrb : b.state = .candidateReady) : pc.ofAnn a ≤ pc.ofAnn b := by
  rcases byTxHashView_le.mp le with less | ⟨-, less | ⟨-, priority⟩⟩
  · exact absurd less (hs ▸ lt_irrefl _)
  · rw [hra, hrb] at less
    exact absurd less (lt_irrefl _)
  · rwa [if_pos hra, if_pos hrb] at priority

end

/-- Whatever stands between two announcements of one hash is of this hash. -/
lemma txhash_eq_of_between (lower : byTxHashView pc a ≤ byTxHashView pc b)
  (upper : byTxHashView pc b ≤ byTxHashView pc c) (hs : c.txhash = a.txhash) :
  b.txhash = a.txhash :=
  le_antisymm ((txhash_le_of_view_le upper).trans hs.le) (txhash_le_of_view_le lower)

end

variable {H P : Type} [LinearOrder H] [DecidableEq P] {pc : PriorityComputer H P}
  {t : Tracker H P} {it : Announcement H P} {rest : Multiset (Announcement H P)}

/-- The container and the states are as they should be. -/
structure Sound (computer : PriorityComputer H P) (t : Tracker H P) : Prop where
  wellFormed : WellFormed computer t
  valid : Valid computer t.anns

section
variable (wf : WellFormed pc t)
include wf

variable (anns : t.anns = it ::ₘ rest)
include anns

lemma WellFormed.fresh : it ∉ rest := by
  have unique := wf.unique
  rw [anns, map_cons, nodup_cons] at unique
  exact fun hm => unique.1 (mem_map_of_mem _ hm)

lemma WellFormed.setState (state : State) : WellFormed pc (t.modify pc it (.setState state)) ∧
    (t.modify pc it (.setState state)).anns = it.setState state ::ₘ rest ∧
    (t.modify pc it (.setState state)).currentSequence = t.currentSequence :=
  wf.modify anns rfl rfl rfl

/-- Between another announcement and the given one stands one of its neighbours in `ByTxHash`. -/
lemma WellFormed.neighbour {b : Announcement H P} (hm : b ∈ rest) :
  (∃ c, t.prev it = some c ∧ byTxHashView pc b ≤ byTxHashView pc c ∧
      byTxHashView pc c ≤ byTxHashView pc it) ∨
    ∃ c, t.next it = some c ∧ byTxHashView pc it ≤ byTxHashView pc c ∧
      byTxHashView pc c ≤ byTxHashView pc b := by
  obtain ⟨rest, rfl⟩ := exists_list rest
  obtain ⟨⟨perm, addresses⟩, -⟩ := wf.addresses anns
  exact neighbour wf.orderedByTxHash addresses perm hm

lemma WellFormed.neighbour_mem :
  (∀ c, t.prev it = some c → c ∈ rest ∧ byTxHashView pc c ≤ byTxHashView pc it) ∧
    ∀ c, t.next it = some c → c ∈ rest ∧ byTxHashView pc it ≤ byTxHashView pc c := by
  obtain ⟨rest, rfl⟩ := exists_list rest
  obtain ⟨⟨perm, addresses⟩, -⟩ := wf.addresses anns
  exact neighbour_mem wf.orderedByTxHash addresses perm

end

/-- What a function leaves behind: a sound tracker with the given announcements, up to which
candidates are the best ones. -/
structure Leaves (computer : PriorityComputer H P) (t t' : Tracker H P)
  (M : Multiset (Announcement H P)) : Prop where
  sound : Sound computer t'
  anns : blurred t'.anns = M
  sequence : t'.currentSequence = t.currentSequence

section
variable (sound : Sound pc t)
include sound

variable (anns : t.anns = it ::ₘ rest)
include anns

/-- Behind a candidate that has just become ready nothing of its hash is selected or ready and
better: it becomes the best one. -/
lemma Sound.promote_best (hd : it.state = .candidateDelayed)
  (behind : ∀ b ∈ rest, b.txhash = it.txhash → b.state ≠ .completed →
    byTxHashView pc b ≤ byTxHashView pc (it.setState .candidateReady)) :
  Leaves pc t ((t.modify pc it (.setState .candidateReady)).modify pc
      (it.setState .candidateReady) (.setState .candidateBest))
    (it.setState .candidateReady ::ₘ blurred rest) := by
  have valid := sound.valid
  rw [anns] at valid
  obtain ⟨wf, har, sequence⟩ := sound.wellFormed.setState anns .candidateReady
  obtain ⟨wfBest, hab, hsb⟩ := wf.setState har .candidateBest
  refine ⟨⟨wfBest, ?_⟩, ?_, hsb.trans sequence⟩
  · rw [hab]
    refine valid.promote_best hd fun b hm hs => ?_
    by_cases hc : b.state = .completed
    · simp [isSelected, hc]
    have le := behind b hm hs hc
    have low := state_le_of_view_le le hs
    refine ⟨?_, fun hr => ?_⟩
    swap
    · exact priority_le_of_view_le (b := it.setState .candidateReady) le hs hr rfl
    cases state : b.state <;> simp [isSelected, value, state] at low ⊢
  · rw [hab, blurred_cons]
    rfl

lemma promoteCandidateReady_spec (hd : it.state = .candidateDelayed) :
  Leaves pc t (t.promoteCandidateReady pc it) (it.setState .candidateReady ::ₘ blurred rest) := by
  have valid := sound.valid
  rw [anns] at valid
  obtain ⟨wf, har, sequence⟩ := sound.wellFormed.setState anns .candidateReady
  have behind : ∀ b ∈ rest,
    (∀ c, (t.modify pc it (.setState .candidateReady)).next (it.setState .candidateReady)
      = some c → ¬ byTxHashView pc c ≤ byTxHashView pc b) →
    byTxHashView pc b ≤ byTxHashView pc (it.setState .candidateReady) := by
    intro b hm noNext
    rcases wf.neighbour har hm with ⟨c, -, lower, upper⟩ | ⟨c, hn, -, ha⟩
    · exact lower.trans upper
    · exact absurd ha (noNext c hn)
  rw [promoteCandidateReady]
  split
  · next none =>
    refine sound.promote_best anns hd fun b hm _ _ => behind b hm fun c hn => ?_
    rw [none] at hn
    cases hn
  · next c hn =>
    obtain ⟨hm, ha⟩ := (wf.neighbour_mem har).2 c hn
    split_ifs with last hb
    · refine sound.promote_best anns hd fun b hmb same hal => ?_
      refine behind b hmb fun c' hn' upper => ?_
      obtain rfl : c = c' := Option.some.inj (hn.symm.trans hn')
      have between := txhash_eq_of_between ha upper same
      have completed := last.resolve_left (not_not.mpr between)
      have high := state_le_of_view_le upper (between.trans same.symm)
      rw [completed] at high
      cases state : b.state <;> simp [value, state] at high hal
    · obtain ⟨hbe, less⟩ := hb
      obtain ⟨same, -⟩ := not_or.mp last
      obtain ⟨rest, rfl⟩ := exists_cons_of_mem hm
      rw [cons_swap] at har
      obtain ⟨wfOld, annsOld, sequenceOld⟩ := wf.setState har .candidateReady
      rw [cons_swap] at annsOld
      obtain ⟨wfNew, han, hsn⟩ := wfOld.setState annsOld .candidateBest
      have fresh : c ∉ rest := by
        have := wf.fresh har
        rw [mem_cons, not_or] at this
        exact this.2
      refine ⟨⟨wfNew, ?_⟩, ?_, hsn.trans (sequenceOld.trans sequence)⟩
      · rw [han]
        exact valid.promote_over hd (not_not.mp same) hbe less fresh
      · rw [han, blurred_cons, blurred_cons, blurred_cons, blur_setState_of_ne c (by decide),
          blur_best hbe]
        rfl
    · obtain ⟨same, hal⟩ := not_or.mp last
      have same := not_not.mp same
      refine ⟨⟨wf, ?_⟩, ?_, sequence⟩
      · rw [har]
        refine valid.promote_ready hd hm same ?_
        have high := state_le_of_view_le ha same.symm
        cases state : c.state with
        | candidateDelayed => simp [value, state] at high
        | candidateReady =>
          exact .inr ⟨.inr rfl, priority_le_of_view_le (a := it.setState .candidateReady) ha same.symm
            rfl state⟩
        | candidateBest => exact .inr ⟨.inl rfl, not_lt.mp fun less => hb ⟨state, less⟩⟩
        | requested => exact .inl rfl
        | completed => exact absurd state hal
      · rw [har, blurred_cons, blur_setState_of_ne it (by decide)]

/-- In front of a selected announcement stands the best of the ready candidates of its hash. -/
lemma Sound.prev_ready (hse : it.isSelected = true) {b : Announcement H P} (hm : b ∈ rest)
  (hs : b.txhash = it.txhash) (hr : b.state = .candidateReady) :
  ∃ c, t.prev it = some c ∧ c ∈ rest ∧ c.txhash = it.txhash ∧ c.state = .candidateReady ∧
    pc.ofAnn b ≤ pc.ofAnn c := by
  have low := selected_value hse
  rcases sound.wellFormed.neighbour anns hm with ⟨c, hp, lower, below⟩ | ⟨c, -, ha, upper⟩
  · have memberC := ((sound.wellFormed.neighbour_mem anns).1 c hp).1
    have sameC := txhash_eq_of_between lower below hs.symm
    have stateC : c.state = .candidateReady := by
      by_contra other
      have atLeast := state_le_of_view_le lower sameC.symm
      have atMost := state_le_of_view_le below (sameC.trans hs)
      have selectedC : c.isSelected = true := by
        refine selected_of_value ?_ (atMost.trans low.2)
        rw [hr] at atLeast
        cases state : c.state <;> simp [value, state] at atLeast other ⊢
      have eq := sound.valid.one c (anns ▸ mem_cons_of_mem memberC) it
        (anns ▸ mem_cons_self it rest) (sameC.trans hs) selectedC hse
      exact sound.wellFormed.fresh anns (eq ▸ memberC)
    exact ⟨c, hp, memberC, sameC.trans hs, stateC,
      priority_le_of_view_le lower sameC.symm hr stateC⟩
  · have le := state_le_of_view_le (ha.trans upper) hs.symm
    rw [hr] at le
    exact absurd (low.1.trans le) (by decide)

lemma changeAndReselect_spec
  (newState : State) (hu : newState = .completed ∨ newState = .candidateDelayed)
  (hst : newState = .completed → Alive rest it.txhash) :
  Leaves pc t (t.changeAndReselect pc it newState) (it.setState newState ::ₘ blurred rest) := by
  have valid := sound.valid
  rw [anns] at valid
  have notBest : newState ≠ .candidateBest := by
    rcases hu with rfl | rfl <;> decide
  have unchanged : t.reselect pc it = t →
    (it.isSelected = true → ∀ b ∈ rest, b.txhash = it.txhash → b.state ≠ .candidateReady) →
    Leaves pc t (t.changeAndReselect pc it newState) (it.setState newState ::ₘ blurred rest) := by
    intro eq none
    obtain ⟨wf, han, sequence⟩ := sound.wellFormed.setState anns newState
    rw [changeAndReselect, eq]
    refine ⟨⟨wf, ?_⟩, ?_, sequence⟩
    · rw [han]
      exact valid.unselect none hu hst
    · rw [han, blurred_cons, blur_setState_of_ne it notBest]
  by_cases hs : it.isSelected = true
  · by_cases he : ∃ b ∈ rest, b.txhash = it.txhash ∧ b.state = .candidateReady
    · obtain ⟨b, hm, hsa, hr⟩ := he
      obtain ⟨c, hp, memberC, sameC, readyC, -⟩ := sound.prev_ready anns hs hm hsa hr
      have eq : t.reselect pc it = t.modify pc c (.setState .candidateBest) := by
        rw [reselect, if_pos hs, hp]
        exact if_pos ⟨sameC, readyC⟩
      have top : ∀ d ∈ rest, d.txhash = it.txhash → d.state = .candidateReady →
        pc.ofAnn d ≤ pc.ofAnn c := by
        intro d memberD sameD readyD
        obtain ⟨c', hp', -, -, -, le⟩ := sound.prev_ready anns hs memberD sameD readyD
        rw [hp, Option.some.injEq] at hp'
        rwa [hp']
      have fresh := sound.wellFormed.fresh anns
      obtain ⟨rest, rfl⟩ := exists_cons_of_mem memberC
      rw [cons_swap] at anns
      obtain ⟨wfBest, hab, hsb⟩ := sound.wellFormed.setState anns .candidateBest
      rw [cons_swap] at hab
      obtain ⟨wf, han, sequence⟩ := wfBest.setState hab newState
      rw [changeAndReselect, eq]
      refine ⟨⟨wf, ?_⟩, ?_, sequence.trans hsb⟩
      · rw [han]
        refine valid.reselect (fun hm => fresh (mem_cons_of_mem hm)) hs sameC
          readyC (fun d memberD => top d (mem_cons_of_mem memberD)) hu
      · rw [han, blurred_cons, blurred_cons, blurred_cons, blur_setState_of_ne it notBest,
          blur_setState_best, setState_self readyC, blur_of_ne (by rw [readyC]; decide)]
    · push Not at he
      refine unchanged ?_ fun _ => he
      rw [reselect, if_pos hs]
      split
      · rfl
      · next c hp =>
        have memberC := ((sound.wellFormed.neighbour_mem anns).1 c hp).1
        exact if_neg fun prev => he c memberC prev.1 prev.2
  · exact unchanged (if_neg hs) fun isSelected => absurd isSelected hs

end

lemma WellFormed.eraseAll {N : Multiset (Announcement H P)} (D : List (Announcement H P))
  (wf : WellFormed pc t) (anns : t.anns = (D : Multiset (Announcement H P)) + N) :
  WellFormed pc (t.eraseAll D) ∧ (t.eraseAll D).anns = N ∧
    (t.eraseAll D).currentSequence = t.currentSequence := by
  induction D generalizing t with
  | nil =>
    rw [coe_nil, zero_add] at anns
    exact ⟨wf, anns, rfl⟩
  | cons a D ih =>
    rw [← cons_coe, cons_add] at anns
    obtain ⟨wfErased, hae, sequence⟩ := wf.erase anns
    obtain ⟨wfAll, annsAll, sequenceAll⟩ := ih wfErased hae
    exact ⟨wfAll, annsAll, sequenceAll.trans sequence⟩

lemma Sound.eraseHash (sound : Sound pc t) {txhash : H} {D : List (Announcement H P)}
  (hg : (D : Multiset (Announcement H P)) = t.anns.filter fun a => a.txhash = txhash) :
  Leaves pc t (t.eraseAll D) (blurred (t.anns.filter fun a => a.txhash ≠ txhash)) := by
  have split : t.anns = (D : Multiset (Announcement H P)) + t.anns.filter fun a => a.txhash ≠ txhash := by
    rw [hg, filter_add_not]
  obtain ⟨wf, anns, sequence⟩ := sound.wellFormed.eraseAll D split
  refine ⟨⟨wf, ?_⟩, ?_, sequence⟩
  · rw [anns]
    exact sound.valid.forget txhash
  · rw [anns]

lemma forgetTxHash_spec (sound : Sound pc t) (txhash : H) : Leaves pc t (t.forgetTxHash pc txhash)
    (blurred (t.anns.filter fun a => a.txhash ≠ txhash)) := by
  refine sound.eraseHash ?_
  have below : ∀ a : Announcement H P, byTxHashView pc a <
    toLex (txhash, toLex (candidateDelayed.value, 0)) ↔ a.txhash < txhash := by
    intro a
    rw [byTxHashView, Prod.Lex.toLex_lt_toLex, Prod.Lex.toLex_lt_toLex]
    simp [value]
  have ordered := sound.wellFormed.orderedByTxHash
  simp only [below]
  rw [(ordered.span_eq_filter ?_).2]
  · rw [(Ordered.span_eq_filter (ordered.filter _) ?_).1]
    · rw [List.filter_filter, anns, filter_coe]
      congr 1
      refine List.filter_congr fun a _ => ?_
      by_cases hs : a.txhash = txhash <;> simp [hs]
    · intro a hma b _ le hs
      have above := (List.mem_filter.mp hma).2
      have upper := txhash_le_of_view_le le
      simp only [Bool.not_eq_true', decide_eq_false_iff_not, not_lt, decide_eq_true_eq] at above hs ⊢
      exact le_antisymm (hs ▸ upper) above
  · intro a _ b _ le less
    simp only [decide_eq_true_eq] at less ⊢
    exact (txhash_le_of_view_le le).trans_lt less

lemma isOnlyNonCompleted_iff (wf : WellFormed pc t) (anns : t.anns = it ::ₘ rest)
  (ha : it.state ≠ .completed) : t.isOnlyNonCompleted it = true ↔ ¬ Alive rest it.txhash := by
  obtain ⟨memPrev, memNext⟩ := wf.neighbour_mem anns
  have below_completed : ∀ a b : Announcement H P, a.state.value ≤ b.state.value →
    b.state ≠ .completed → a.state ≠ .completed := by
    intro a b le aliveB hc
    rw [hc] at le
    cases state : b.state <;> simp [value, state] at le aliveB
  rw [isOnlyNonCompleted]
  split_ifs with hasPrev hasNext
  · obtain ⟨c, hp, same⟩ := Option.any_eq_true _ _ |>.mp hasPrev
    obtain ⟨hm, below⟩ := memPrev c hp
    have same := of_decide_eq_true same
    have aliveC := below_completed c it (state_le_of_view_le below same) ha
    exact iff_of_false id (not_not.mpr ⟨c, hm, same, aliveC⟩)
  · obtain ⟨c, hn, hf⟩ := Option.any_eq_true _ _ |>.mp hasNext
    obtain ⟨same, aliveC⟩ := of_decide_eq_true hf
    exact iff_of_false id (not_not.mpr ⟨c, (memNext c hn).1, same, aliveC⟩)
  · refine iff_of_true rfl ?_
    rintro ⟨b, hm, same, aliveB⟩
    rcases wf.neighbour anns hm with ⟨c, hp, lower, upper⟩ | ⟨c, hn, lower, upper⟩
    · have sameC := (txhash_eq_of_between lower upper same.symm).trans same
      exact hasPrev (by rw [hp]; exact decide_eq_true sameC)
    · have sameC := txhash_eq_of_between lower upper same
      have aliveC := below_completed c b (state_le_of_view_le upper (sameC.trans same.symm)) aliveB
      exact hasNext (by rw [hn]; exact decide_eq_true ⟨sameC, aliveC⟩)

/-- The announcements of a hash from the first one on. -/
lemma WellFormed.group (wf : WellFormed pc t) (anns : t.anns = it ::ₘ rest)
  (first : ∀ c, t.prev it = some c → c.txhash ≠ it.txhash) :
  ((it :: (after it.isAt t.index.byTxHash).takeWhile fun ann => ann.txhash = it.txhash : List _) :
    Multiset (Announcement H P)) = t.anns.filter fun a => a.txhash = it.txhash := by
  obtain ⟨rest, rfl⟩ := exists_list rest
  obtain ⟨⟨perm, addresses⟩, -⟩ := wf.addresses anns
  obtain ⟨hs, hob, hoa, lower, upper⟩ := wf.orderedByTxHash.around addresses perm
  have none : (before it.isAt t.index.byTxHash).filter (fun a => a.txhash = it.txhash) = [] := by
    refine List.filter_eq_nil_iff.mpr fun b hm sameB => ?_
    obtain ⟨c, last⟩ := Option.ne_none_iff_exists'.mp
      (mt List.getLast?_eq_none_iff.mp (List.ne_nil_of_mem hm))
    have sameB := of_decide_eq_true sameB
    have between := txhash_eq_of_between (hob.le_getLast last hm)
      (lower c (List.mem_of_mem_getLast? last)) sameB.symm
    exact first c last (between.trans sameB)
  have all : (after it.isAt t.index.byTxHash).takeWhile (fun a => a.txhash = it.txhash) =
    (after it.isAt t.index.byTxHash).filter fun a => a.txhash = it.txhash := by
    refine (hoa.span_eq_filter fun a hma b hmb le sameB => ?_).1
    exact decide_eq_true (txhash_eq_of_between (upper a hma) le (of_decide_eq_true sameB))
  rw [anns, filter_cons_of_pos (p := fun a : Announcement H P => a.txhash = it.txhash) _ rfl,
    coe_eq_coe.mpr hs, filter_coe,
    List.filter_append, none, all]
  rfl

variable (sound : Sound pc t) (anns : t.anns = it ::ₘ rest) (hc : it.state ≠ .completed)
include sound anns hc

lemma makeCompleted_stays (ha : Alive rest it.txhash) :
  (t.makeCompleted pc it).2 = true ∧ Leaves pc t (t.makeCompleted pc it).1
    (it.setState .completed ::ₘ blurred rest) := by
  have notOnly := mt (isOnlyNonCompleted_iff sound.wellFormed anns hc).mp (not_not.mpr ha)
  rw [makeCompleted, if_neg hc, if_neg notOnly]
  exact ⟨rfl, changeAndReselect_spec sound anns .completed (.inl rfl) fun _ => ha⟩

/-- The last announcement of a hash that is not completed takes the others with it. -/
lemma makeCompleted_drops (dead : ¬ Alive rest it.txhash) :
  (t.makeCompleted pc it).2 = false ∧ Leaves pc t (t.makeCompleted pc it).1
    (blurred (t.anns.filter fun a => a.txhash ≠ it.txhash)) := by
  have only := (isOnlyNonCompleted_iff sound.wellFormed anns hc).mpr dead
  have first : ∀ c, t.prev it = some c → c.txhash ≠ it.txhash := by
    intro c hp hs
    rw [isOnlyNonCompleted, hp, if_pos (by simpa using hs)] at only
    cases only
  rw [makeCompleted, if_neg hc, if_pos only]
  exact ⟨rfl, sound.eraseHash (sound.wellFormed.group anns first)⟩

end TxRequest
