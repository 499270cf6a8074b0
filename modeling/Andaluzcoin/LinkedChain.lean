import Mathlib

/-!
# Chains linked by a name of the predecessor

Elements have a name, and a link that should be the name of the element before them. A
chain whose links are left out can be restored from the name it starts on, one element
after the other. Loops over such chains stop at the first element they refuse.
-/

namespace LinkedChain

variable {α β ν σ : Type*}

section
variable (name : α → ν) (link : α → ν)

/-- The name a chain ends on, when it starts on `start`. -/
def tip (start : ν) (chain : List α) : ν := chain.foldl (fun _ a => name a) start

@[simp] lemma tip_nil (start : ν) : tip name start [] = start := rfl

@[simp] lemma tip_cons (start : ν) (a : α) (chain : List α) :
  tip name start (a :: chain) = tip name (name a) chain := rfl

lemma tip_append (start : ν) (chain more : List α) :
  tip name start (chain ++ more) = tip name (tip name start chain) more := by
  simp [tip]

def Linked (start : ν) : List α → Prop
  | [] => True
  | a :: chain => link a = start ∧ Linked (name a) chain

lemma linked_append {start : ν} {chain more : List α} : Linked name link start (chain ++ more) ↔
    Linked name link start chain ∧ Linked name link (tip name start chain) more := by
  induction chain generalizing start with
  | nil => simp [Linked]
  | cons a chain ih => simp [Linked, ih, and_assoc]

end

section
variable (name : α → ν) (full : ν → β → α)

/-- The chain with its links put back. -/
def restore (start : ν) : List β → List α
  | [] => []
  | b :: rest => full start b :: restore (name (full start b)) rest

@[simp] lemma length_restore (start : ν) (bare : List β) :
  (restore name full start bare).length = bare.length := by
  induction bare generalizing start with
  | nil => rfl
  | cons b rest ih => simp [restore, ih]

lemma restore_append (start : ν) (bare more : List β) :
  restore name full start (bare ++ more) = restore name full start bare
    ++ restore name full (tip name start (restore name full start bare)) more := by
  induction bare generalizing start with
  | nil => rfl
  | cons b rest ih => simp [restore, ih]

end

variable (body : σ → α → Bool × σ)

/-- Run the body over a list until it refuses an element. -/
def untilRefused (s : σ) : List α → Bool × σ
  | [] => (true, s)
  | a :: rest =>
    let next := body s a
    if next.1 then untilRefused next.2 rest else (false, next.2)

/-- The elements taken before the first refusal. -/
def taken (s : σ) : List α → List α
  | [] => []
  | a :: rest =>
    let next := body s a
    if next.1 then a :: taken next.2 rest else []

/-- What every taken element keeps holds of the state before the refusal, which is the last
state when there was none. -/
theorem untilRefused_keeps (Keeps : σ → List α → Prop)
  (step : ∀ s done a, Keeps s done → (body s a).1 = true → Keeps (body s a).2 (done ++ [a]))
  {s : σ} {done : List α} (hs : Keeps s done) (items : List α) :
  ∃ s', Keeps s' (done ++ taken body s items) ∧
    ((untilRefused body s items).1 = true → (untilRefused body s items).2 = s') := by
  induction items generalizing s done with
  | nil => exact ⟨s, by simpa [taken] using hs, fun _ => rfl⟩
  | cons a rest ih =>
    cases next : (body s a).1 with
    | false => exact ⟨s, by simpa [taken, next] using hs, by simp [untilRefused, next]⟩
    | true =>
      obtain ⟨s', hk, last⟩ := ih (step s done a hs next)
      refine ⟨s', ?_, ?_⟩
      · simpa [taken, next] using hk
      · simpa [untilRefused, next] using last

end LinkedChain
