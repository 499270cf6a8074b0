import Mathlib

/-!
# Computations that can fail

Rules for reading a computation in `Except` backwards: what a success of a
sequence says about its parts, and how to show that one particular failure
never comes out of it. A fold, which cannot fail, has a rule of its own.
-/

universe u v w

namespace Outcome

variable {ε : Type u} {α β : Type v} {x : Except ε α} {u : PUnit.{v + 1}} {γ : Type w}
  {f : α → Except ε β} {b : β} {e e' : ε} {xs : List γ} {ε' : Type u}
  {check : γ → Except ε PUnit.{v + 1}}

lemma bind_eq_ok : (x >>= f) = .ok b ↔ ∃ a, x = .ok a ∧ f a = .ok b := by
  cases x with
  | error e =>
    constructor
    · intro h
      cases h
    · rintro ⟨a, h, -⟩
      cases h
  | ok a =>
    constructor
    · intro h
      exact ⟨a, rfl, h⟩
    · rintro ⟨a', h, run⟩
      cases h
      exact run

lemma map_eq_ok {f : α → β} : x.map f = .ok b ↔ ∃ a, x = .ok a ∧ f a = b := by
  cases x with
  | error e => simp [Except.map]
  | ok a => simp [Except.map]

lemma mapError_eq_ok {f : ε → ε'} {a : α} : x.mapError f = .ok a ↔ x = .ok a := by
  cases x <;> simp [Except.mapError]

lemma forM_eq_ok (ok : xs.forM check = .ok u) : ∀ x ∈ xs, check x = .ok ⟨⟩ := by
  induction xs with
  | nil => simp
  | cons x rest ih =>
    obtain ⟨_, first, hl⟩ := bind_eq_ok.mp ok
    intro y hm
    rcases List.mem_cons.mp hm with rfl | hm
    · exact first
    · exact ih hl y hm

/-- Fail with `e` when the condition holds. -/
def failIf (bad : Bool) (e : ε) : Except ε PUnit.{v + 1} := if bad then .error e else .ok ⟨⟩

lemma failIf_eq_ok {bad : Bool} : failIf bad e = .ok u ↔ bad = false := by
  cases bad <;> simp [failIf]

lemma unless_eq_ok {bad : Bool} {f : PUnit.{v + 1} → Except ε β} :
  (failIf bad e >>= f) = .ok b ↔ bad = false ∧ f ⟨⟩ = .ok b := by
  cases bad <;> simp [failIf, bind, Except.bind]

/-- The failure `e` does not come out. -/
def Never (e : ε) (x : Except ε α) : Prop := x ≠ .error e

lemma never_ok (e : ε) (a : α) : Never e (.ok a) := by
  intro h
  cases h

lemma never_error (ne : e' ≠ e) : Never e (.error e' : Except ε α) := by
  intro h
  cases h
  exact ne rfl

lemma never_bind (first : Never e x)
  (next : ∀ a, x = .ok a → Never e (f a)) : Never e (x >>= f) := by
  cases x with
  | error e' =>
    intro h
    exact first (congrArg Except.error (Except.error.inj h))
  | ok a => exact next a rfl

lemma never_failIf (bad : Bool) (ne : e' ≠ e) :
  Never e (failIf bad e' : Except ε PUnit.{v + 1}) := by
  cases bad with
  | true => exact never_error ne
  | false => exact never_ok e _

lemma never_unless {bad : Bool} {f : PUnit.{v + 1} → Except ε β}
  (next : bad = false → Never e (f ⟨⟩)) (ne : e' ≠ e := by simp) :
  Never e (failIf bad e' >>= f) :=
  never_bind (never_failIf bad ne) fun _ ok => next (failIf_eq_ok.mp ok)

lemma never_mapError {e' : ε'} {f : ε → ε'}
  (only : ∀ e₀, f e₀ = e' → e₀ = e) (hn : Never e x) : Never e' (x.mapError f) := by
  cases x with
  | ok a => exact never_ok e' a
  | error e₀ =>
    intro h
    exact hn (congrArg Except.error (only e₀ (Except.error.inj h)))

lemma never_forM (hn : ∀ x ∈ xs, Never e (check x)) : Never e (xs.forM check) := by
  induction xs with
  | nil => exact never_ok e _
  | cons x rest ih =>
    refine never_bind (hn x (.head _)) fun _ _ => ?_
    exact ih fun y hm => hn y (.tail _ hm)

/-- The computation succeeds, with a result of which `Post` holds. -/
def Yields (x : Except ε α) (Post : α → Prop) : Prop := ∃ a, x = .ok a ∧ Post a

variable {x y : Except ε α}

/-- Whatever the second computation yields, the first one yields too. -/
def Admits (x y : Except ε α) : Prop := ∀ a, y = .ok a → x = .ok a

lemma Admits.refl (x : Except ε α) : Admits x x := fun _ ok => ok

lemma Admits.bind {f g : α → Except ε β} (first : Admits x y)
  (next : ∀ a, Admits (f a) (g a)) : Admits (x >>= f) (y >>= g) := by
  intro b ok
  obtain ⟨a, hof, okNext⟩ := bind_eq_ok.mp ok
  exact bind_eq_ok.mpr ⟨a, first a hof, next a b okNext⟩

lemma Admits.map (f : α → β) (ha : Admits x y) : Admits (x.map f) (y.map f) := by
  intro b ok
  obtain ⟨a, hof, result⟩ := map_eq_ok.mp ok
  exact map_eq_ok.mpr ⟨a, ha a hof, result⟩

lemma Admits.ite {c : Prop} [Decidable c] {x' y' : Except ε α} (yes : c → Admits x y)
  (no : ¬c → Admits x' y') : Admits (if c then x else x') (if c then y else y') := by
  by_cases h : c
  · rw [if_pos h, if_pos h]
    exact yes h
  · rw [if_neg h, if_neg h]
    exact no h

lemma admits_failIf {bad worse : Bool} (e : ε) (more : bad = true → worse = true) :
  Admits (failIf bad e : Except ε PUnit.{v + 1}) (failIf worse e) := by
  rintro ⟨⟩ ok
  have fine := failIf_eq_ok.mp ok
  rw [failIf_eq_ok, ← Bool.not_eq_true]
  intro isBad
  rw [more isBad] at fine
  cases fine

end Outcome

namespace List

variable {α β : Type*} {f : β → α → β} {b : β} {l : List α}

/-- An invariant of the elements so far and of what they were folded to holds at the end. -/
lemma foldl_inv (Inv : List α → β → Prop) (start : Inv [] b)
  (step : ∀ done a later b, l = done ++ a :: later → Inv done b → Inv (done ++ [a]) (f b a)) :
  Inv l (l.foldl f b) := by
  induction l using reverseRecOn with
  | nil => exact start
  | append_singleton l a ih =>
    have before := ih fun done a' later b eq => step done a' (later ++ [a]) b (by simp [eq])
    rw [foldl_append]
    exact step l a [] _ rfl before

end List
