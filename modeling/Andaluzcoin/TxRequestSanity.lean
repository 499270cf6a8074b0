import Andaluzcoin.Outcome
import Andaluzcoin.TxRequestCalls

/-!
# The sanity checks of the request tracker

The assertions of `SanityCheck` count announcements; they follow from what is kept about them one by
one.
-/

namespace TxRequest

open List Announcement

section
variable {H P : Type} {computer : PriorityComputer H P} {l : List (Announcement H P)}

lemma countP_selected (l : List (Announcement H P)) :
  l.countP (fun a => a.state = .candidateBest) + l.countP (fun a => a.state = .requested) =
    l.countP isSelected := by
  induction l with
  | nil => rfl
  | cons a l ih =>
    rw [countP_cons, countP_cons, countP_cons, ← ih]
    by_cases best : a.state = .candidateBest <;> by_cases hr : a.state = .requested <;>
      simp [isSelected, best, hr] <;> omega

lemma countP_le_one {p : Announcement H P → Bool} (nodup : l.Nodup)
  (one : ∀ a ∈ l, ∀ b ∈ l, p a = true → p b = true → a = b) : l.countP p ≤ 1 := by
  rw [countP_eq_length_filter]
  have member : ∀ a, a ∈ l.filter p → a ∈ l ∧ p a = true := fun a => mem_filter.mp
  have distinct := nodup.filter p
  rcases eq : l.filter p with _ | ⟨a, _ | ⟨b, rest⟩⟩
  · simp
  · simp
  · rw [eq] at distinct member
    obtain ⟨hma, passA⟩ := member a (.head _)
    obtain ⟨hmb, passB⟩ := member b (.tail a (.head _))
    rw [one a hma b hmb passA passB] at distinct
    exact absurd mem_cons_self (nodup_cons.mp distinct).1

end

variable {H P : Type} [LinearOrder H] [DecidableEq P] {computer : PriorityComputer H P}
  {t : Tracker H P}

lemma WellFormed.nodup (wf : WellFormed computer t) : t.index.byTxHash.Nodup :=
  Nodup.of_map _ (Multiset.coe_nodup.mp wf.unique)

lemma Sound.one_selected (hs : Sound computer t) (txhash : H) :
  (t.index.byTxHash.filter fun a => a.txhash = txhash).countP isSelected ≤ 1 := by
  refine countP_le_one (hs.wellFormed.nodup.filter _) fun a hma b hmb => ?_
  obtain ⟨hma, sameA⟩ := mem_filter.mp hma
  obtain ⟨hmb, sameB⟩ := mem_filter.mp hmb
  exact hs.valid.one a hma b hmb ((of_decide_eq_true sameA).trans (of_decide_eq_true sameB).symm)

lemma WellFormed.noPeerTwice (wf : WellFormed computer t) (txhash : H) :
  ((t.index.byTxHash.filter fun a => a.txhash = txhash).map Announcement.peer).Nodup := by
  have unique : ((t.index.byTxHash.filter fun a => a.txhash = txhash).map address).Nodup :=
    (Multiset.coe_nodup.mp wf.unique).sublist (filter_sublist.map _)
  refine Nodup.of_map (fun peer => (peer, txhash)) ?_
  rw [map_map]
  refine (map_congr_left fun a hm => ?_) ▸ unique
  exact Prod.ext rfl (of_decide_eq_true (mem_filter.mp hm).2)

lemma Sound.sane (hso : Sound computer t) {ann : Announcement H P} (hm : ann ∈ t.index.byTxHash) :
  (computeTxHashInfo computer t.index.byTxHash ann.txhash).Sane := by
  have own : ∀ {a : Announcement H P}, a ∈ t.index.byTxHash → a.txhash = ann.txhash →
    a ∈ t.index.byTxHash.filter fun a => a.txhash = ann.txhash := fun hma hs =>
    mem_filter.mpr ⟨hma, decide_eq_true hs⟩
  have one := hso.one_selected ann.txhash
  rw [← countP_selected] at one
  refine ⟨?_, one, fun hr => le_antisymm one ?_, fun hr best => ?_, hso.wellFormed.noPeerTwice _⟩
  · obtain ⟨b, hmb, hs, ha⟩ := hso.valid.alive ann hm
    have counted : 0 < (t.index.byTxHash.filter fun a => a.txhash = ann.txhash).countP
      fun a => a.state = b.state :=
      countP_pos_iff.mpr ⟨b, own hmb hs, decide_eq_true rfl⟩
    simp only [computeTxHashInfo]
    cases state : b.state with
    | completed => exact absurd state ha
    | _ =>
      rw [state] at counted
      omega
  · obtain ⟨a, hma, hre⟩ := countP_pos_iff.mp hr
    obtain ⟨hma, hs⟩ := mem_filter.mp hma
    obtain ⟨b, hmb, sameB, hse⟩ := hso.valid.ready a hma (of_decide_eq_true hre)
    refine (Nat.succ_le_of_lt (countP_pos_iff.mpr
      ⟨b, own hmb (sameB.trans (of_decide_eq_true hs)), hse⟩)).trans (countP_selected _).ge
  · obtain ⟨b, hmb, hb⟩ := countP_pos_iff.mp best
    -- the priority that is recorded is that of a best candidate
    obtain ⟨c, hmc, sameC, bestC, eq⟩ : ∃ c ∈ t.index.byTxHash, c.txhash = ann.txhash ∧
      c.state = .candidateBest ∧ (computeTxHashInfo computer t.index.byTxHash
        ann.txhash).priorityCandidateBest = computer.ofAnn c := by
      refine foldl_inv (fun done prio => b ∈ done → ∃ c ∈ t.index.byTxHash,
        c.txhash = ann.txhash ∧ c.state = .candidateBest ∧ prio = computer.ofAnn c) (by simp)
        (fun done a later prio split ih hm => ?_) hmb
      split_ifs with bestA
      · obtain ⟨hma, sameA⟩ := mem_filter.mp (split ▸ mem_append_right done (.head later))
        exact ⟨a, hma, of_decide_eq_true sameA, bestA, rfl⟩
      · refine ih ((mem_append.mp hm).resolve_right fun last => bestA ?_)
        exact mem_singleton.mp last ▸ of_decide_eq_true hb
    rw [eq, computeTxHashInfo]
    refine foldlRecOn (motive := (· ≤ computer.ofAnn c)) _ _ (Nat.zero_le _) fun prio le a hma => ?_
    obtain ⟨hma, sameA⟩ := mem_filter.mp hma
    split_ifs with hre
    · exact max_le le
        (hso.valid.best a hma c hmc ((of_decide_eq_true sameA).trans sameC.symm) hre bestC)
    · exact le

theorem Sound.sanityCheck (hs : Sound computer t) : t.SanityCheck computer :=
  ⟨hs.wellFormed.peerinfo, fun _ hm => hs.sane hm⟩

end TxRequest
