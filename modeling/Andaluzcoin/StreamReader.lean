import Mathlib

/-!
# Reading from a stream

Computations that take symbols from the front of a stream and can fail. A reader reads a text as a
value when it gets the value back from the text whatever follows it, and it is canonical when a value
comes from one text only, the one that a writer gives for it.
-/

namespace StreamReader

open List

/-- A computation that takes symbols from the front of a stream. -/
abbrev Reader (ε β α : Type) := StateT (List β) (Except ε) α

section
variable {ε β α γ : Type} {first input rest second text : List β} {r : Reader ε β α} {a : α}
  {f : α → Reader ε β γ} {c : γ}

/-- In front of any rest the text is read as the value. -/
def Reads (r : Reader ε β α) (text : List β) (a : α) : Prop :=
  ∀ rest, r (text ++ rest) = .ok (a, rest)

/-- Whatever is read as a value is the text of the value. -/
def Canonical (r : Reader ε β α) (write : α → List β) : Prop :=
  ∀ input a rest, r input = .ok (a, rest) → input = write a ++ rest

lemma bind_apply (r : Reader ε β α) (f : α → Reader ε β γ) (input : List β) :
  (r >>= f) input = (r input).bind fun p => f p.1 p.2 := rfl

lemma pure_apply (a : α) (input : List β) : (pure a : Reader ε β α) input = .ok (a, input) := rfl

lemma bind_eq_ok : (r >>= f) input = .ok (c, rest) ↔
    ∃ a middle, r input = .ok (a, middle) ∧ f a middle = .ok (c, rest) := by
  rw [bind_apply]
  cases r input with
  | error e => simp [Except.bind]
  | ok p =>
    obtain ⟨a, middle⟩ := p
    simp [Except.bind]

lemma bind_eq_error {e : ε} (hf : r input = .error e)
  (f : α → Reader ε β γ) : (r >>= f) input = .error e := by
  rw [bind_apply, hf]
  rfl

lemma pure_eq_ok {b : α} :
  (pure a : Reader ε β α) input = .ok (b, rest) ↔ a = b ∧ input = rest := by
  simp [pure_apply]

lemma bind_pure_eq_ok {g : α → γ} : (r >>= fun a => pure (g a)) input = .ok (c, rest) ↔
    ∃ a, r input = .ok (a, rest) ∧ g a = c := by
  rw [bind_eq_ok]
  simp only [pure_eq_ok]
  exact ⟨fun ⟨a, _, hr, eq, hs⟩ => ⟨a, hs ▸ hr, eq⟩, fun ⟨a, hr, eq⟩ => ⟨a, rest, hr, eq, rfl⟩⟩

lemma reads_pure (a : α) : Reads (pure a : Reader ε β α) [] a := fun _ => rfl

lemma Reads.bind_apply (hr : Reads r text a)
  (f : α → Reader ε β γ) (rest : List β) : (r >>= f) (text ++ rest) = f a rest := by
  rw [StreamReader.bind_apply, hr rest]
  rfl

lemma Reads.bind (hr : Reads r first a) (next : Reads (f a) second c) :
  Reads (r >>= f) (first ++ second) c := by
  intro rest
  rw [append_assoc, hr.bind_apply]
  exact next rest

/-- The last step of a reader takes nothing. -/
lemma Reads.bind_last (hr : Reads r text a) (last : f a = pure c) : Reads (r >>= f) text c := by
  intro rest
  rw [hr.bind_apply, last]
  rfl

lemma Canonical.unique {write : α → List β} (hc : Canonical r write)
  (hr : r first = .ok (a, [])) (hr' : r second = .ok (a, [])) : first = second := by
  rw [hc first a [] hr, hc second a [] hr']

end

variable {ε β α : Type} {as : List α} {input rest text : List β} {r : Reader ε β α}
  {write : α → List β} {n : ℕ}

/-- Fail with an error. -/
def fail (e : ε) : Reader ε β α := fun _ => .error e

lemma fail_ne_ok {e : ε} {p : α × List β} : (fail e : Reader ε β α) input ≠ .ok p := by
  intro eq
  cases eq

/-- The next symbols, as many as asked for, or an error when the stream is too short. -/
def take (short : ε) (n : ℕ) : Reader ε β (List β) := fun input =>
  if input.length < n then .error short else .ok (input.take n, input.drop n)

lemma reads_take (short : ε) (hl : text.length = n) : Reads (take short n) text text := by
  intro rest
  subst hl
  rw [take, if_neg (by simp), take_left, drop_left]

lemma take_eq_ok {short : ε} :
  take short n input = .ok (text, rest) ↔ text.length = n ∧ input = text ++ rest := by
  constructor
  · intro eq
    rw [take] at eq
    split_ifs at eq with long
    cases eq
    refine ⟨?_, (take_append_drop n input).symm⟩
    rw [length_take]
    omega
  · rintro ⟨hl, rfl⟩
    exact reads_take short hl rest

/-- A reader again and again. -/
def times (r : Reader ε β α) : ℕ → Reader ε β (List α)
  | 0 => pure []
  | n + 1 => do
    let a ← r
    let as ← times r n
    pure (a :: as)

lemma Reads.times (hr : ∀ a ∈ as, Reads r (write a) a) :
  Reads (times r as.length) (as.flatMap write) as := by
  induction as with
  | nil => exact reads_pure []
  | cons a as ih =>
    have later := ih fun b hm => hr b (.tail a hm)
    exact (hr a (.head _)).bind (later.bind_last rfl)

lemma Canonical.times (hc : Canonical r write) (read : times r n input = .ok (as, rest)) :
  as.length = n ∧ input = as.flatMap write ++ rest := by
  induction n generalizing input as with
  | zero =>
    obtain ⟨rfl, rfl⟩ := pure_eq_ok.mp read
    exact ⟨rfl, rfl⟩
  | succ n ih =>
    obtain ⟨a, middle, first, read⟩ := bind_eq_ok.mp read
    obtain ⟨hla, ho, rfl⟩ := bind_pure_eq_ok.mp read
    obtain ⟨hl, rfl⟩ := ih ho
    rw [hc input a _ first, length_cons, hl, flatMap_cons, append_assoc]
    exact ⟨rfl, rfl⟩

lemma times_forall {P : α → Prop} (each : ∀ input a rest, r input = .ok (a, rest) → P a)
  (read : times r n input = .ok (as, rest)) : ∀ a ∈ as, P a := by
  induction n generalizing input as with
  | zero =>
    obtain ⟨rfl, rfl⟩ := pure_eq_ok.mp read
    simp
  | succ n ih =>
    obtain ⟨a, middle, first, read⟩ := bind_eq_ok.mp read
    obtain ⟨hl, ho, rfl⟩ := bind_pure_eq_ok.mp read
    exact forall_mem_cons.mpr ⟨each input a middle first, ih ho⟩

end StreamReader
