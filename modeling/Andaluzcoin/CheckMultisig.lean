import Andaluzcoin.Interpreter

/-!
# The signatures of CHECKMULTISIG

The loop of `OP_CHECKMULTISIG` tries each key on the first signature that is left and never goes
back. It finds a matching that keeps the order whenever there is one: a matching that skips a key
the first signature passes with can use that key instead.
-/

namespace Interpreter

open Transaction Script Outcome List

section
variable {α β : Type} {accepts : α → β → Prop} {sig : α} {sigs : List α} {key : β} {keys : List β}

lemma length_le_of_matched (matched : SublistForall₂ accepts sigs keys) :
  sigs.length ≤ keys.length := by
  obtain ⟨chosen, pairs, sub⟩ := sublistForall₂_iff.mp matched
  rw [pairs.length_eq]
  exact sub.length_le

lemma matched_cons (passes : accepts sig key) :
  SublistForall₂ accepts (sig :: sigs) (key :: keys) ↔ SublistForall₂ accepts sigs keys := by
  constructor
  · intro matched
    obtain ⟨_, _ | ⟨-, pairs⟩, sub⟩ := sublistForall₂_iff.mp matched
    exact sublistForall₂_iff.mpr ⟨_, pairs, sub.tail⟩
  · exact .cons passes

lemma matched_skip (hf : ¬ accepts sig key) : SublistForall₂ accepts (sig :: sigs) (key :: keys) ↔
    SublistForall₂ accepts (sig :: sigs) keys := by
  constructor
  · rintro (_ | ⟨hp⟩ | ⟨hl⟩)
    · exact absurd hp hf
    · exact hl
  · exact .cons_right

lemma matched_iff : SublistForall₂ accepts sigs keys ↔ ∃ f : Fin sigs.length → Fin keys.length,
  StrictMono f ∧ ∀ i, accepts (sigs.get i) (keys.get (f i)) := by
  rw [sublistForall₂_iff]
  constructor
  · rintro ⟨chosen, pairs, sub⟩
    obtain ⟨f, hs⟩ := sublist_iff_exists_fin_orderEmbedding_get_eq.mp sub
    have length := pairs.length_eq
    refine ⟨fun i => f (i.cast length), f.strictMono.comp (Fin.cast_strictMono length), fun i => ?_⟩
    rw [← hs]
    exact pairs.get i.isLt (length ▸ i.isLt)
  rintro ⟨f, increasing, hp⟩
  refine ⟨ofFn fun i => keys.get (f i), ?_, ?_⟩
  · refine forall₂_iff_get.mpr ⟨(length_ofFn).symm, fun i first hse => ?_⟩
    simpa using hp ⟨i, first⟩
  · refine sublist_iff_exists_fin_orderEmbedding_get_eq.mpr ⟨OrderEmbedding.ofStrictMono
      (fun i => f (i.cast (length_ofFn))) fun i j less => increasing less, fun i => ?_⟩
    simp [Fin.cast]

end

variable (crypto : Crypto) (checker : SignatureChecker) (sigversion : SigVersion)
  (flags : ScriptVerifyFlags) (scriptCode : CScript)

lemma matchSignatures_iff {sigs keys : List Bytes} {success : Bool}
  (hr : matchSignatures crypto checker sigversion flags scriptCode sigs keys = .ok success) :
  success = true ↔ SublistForall₂ (fun sig key =>
    checker.checkECDSASignature sig key scriptCode sigversion = true) sigs keys := by
  generalize rel : (fun sig key => checker.checkECDSASignature sig key scriptCode sigversion = true)
    = accepts
  induction keys generalizing sigs with
  | nil =>
    cases sigs with
    | nil =>
      cases hr
      exact iff_of_true rfl .nil
    | cons sig sigs =>
      cases hr
      exact iff_of_false (by simp) nofun
  | cons key keys ih =>
    cases sigs with
    | nil =>
      cases hr
      exact iff_of_true rfl .nil
    | cons sig sigs =>
      obtain ⟨-, -, hr⟩ := bind_eq_ok.mp hr
      obtain ⟨-, -, hr⟩ := bind_eq_ok.mp hr
      generalize left : (if checker.checkECDSASignature sig key scriptCode sigversion
        then sigs else sig :: sigs) = sigsLeft at hr
      have greedy : SublistForall₂ accepts (sig :: sigs) (key :: keys) ↔
        SublistForall₂ accepts sigsLeft keys := by
        subst rel
        split at left <;> subst left
        · next hp => exact matched_cons hp
        · next hf => exact matched_skip hf
      rw [greedy]
      dsimp only at hr
      split at hr
      · -- too few keys are left
        next short =>
        cases hr
        exact iff_of_false (by simp) fun matched => absurd (length_le_of_matched matched) (by omega)
      · exact ih hr

lemma matchSignatures_ok {sigs keys : List Bytes}
  (hsp : ∀ sig ∈ sigs, checkSignatureEncoding crypto flags sig = .ok ())
  (hkp : ∀ key ∈ keys, checkPubKeyEncoding flags key sigversion = .ok ()) :
  ∃ success, matchSignatures crypto checker sigversion flags scriptCode sigs keys
    = .ok success := by
  induction keys generalizing sigs with
  | nil => cases sigs <;> exact ⟨_, rfl⟩
  | cons key keys ih =>
    cases sigs with
    | nil => exact ⟨_, rfl⟩
    | cons sig sigs =>
      obtain ⟨sigPasses, hl⟩ := forall_mem_cons.mp hsp
      obtain ⟨keyPasses, hkp⟩ := forall_mem_cons.mp hkp
      simp only [matchSignatures, sigPasses, keyPasses, bind, Except.bind]
      split <;> split
      · exact ⟨_, rfl⟩
      · exact ih hl hkp
      · exact ⟨_, rfl⟩
      · exact ih hsp hkp

theorem checkMultisig_ordered (sigs keys : List Bytes) :
  (∀ success, matchSignatures crypto checker sigversion flags scriptCode sigs keys = .ok success →
    (success = true ↔ ∃ f : Fin sigs.length → Fin keys.length, StrictMono f ∧
      ∀ i, checker.checkECDSASignature (sigs.get i) (keys.get (f i)) scriptCode sigversion
        = true)) ∧ ((∀ sig ∈ sigs, checkSignatureEncoding crypto flags sig = .ok ()) →
    (∀ key ∈ keys, checkPubKeyEncoding flags key sigversion = .ok ()) →
    ∃ success, matchSignatures crypto checker sigversion flags scriptCode sigs keys
      = .ok success) := by
  refine ⟨fun success result => ?_, matchSignatures_ok crypto checker sigversion flags scriptCode⟩
  rw [matchSignatures_iff crypto checker sigversion flags scriptCode result]
  exact matched_iff

end Interpreter
