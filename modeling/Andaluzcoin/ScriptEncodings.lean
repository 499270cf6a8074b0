import Andaluzcoin.Interpreter

/-!
# The encodings of signatures and numbers

Which byte strings are accepted as a signature, and which as a number: exactly
those of the strict grammar, and exactly those that `serialize` writes.
-/

namespace ScriptEncodings

open Script CScriptNum Interpreter Outcome List

section

/-- `if (bad) return false;`, where the condition reads bytes. -/
def reject (bad : Option Bool) (next : Option Bool) : Option Bool :=
  bad.bind fun bad => if bad then some false else next

/-- `IsValidSignatureEncoding` with its reads: there is no answer when one of
them is outside of the string. Both operands of a conjunction are read. -/
def readSignatureEncoding (sig : Bytes) : Option Bool :=
  reject (some (sig.length < 9)) <|
  reject (some (sig.length > 73)) <|
  reject (sig[0]?.map fun b : UInt8 => b ≠ 0x30) <|
  reject (sig[1]?.map fun b : UInt8 => b.toNat ≠ sig.length - 3) <|
  sig[3]?.bind fun lenR : UInt8 =>
  reject (some (5 + lenR.toNat ≥ sig.length)) <|
  sig[5 + lenR.toNat]?.bind fun lenS : UInt8 =>
  reject (some (lenR.toNat + lenS.toNat + 7 ≠ sig.length)) <|
  reject (sig[2]?.map fun b : UInt8 => b ≠ 0x02) <|
  reject (some (lenR.toNat = 0)) <|
  reject (sig[4]?.map fun b : UInt8 => b &&& 0x80 ≠ 0) <|
  reject (sig[4]?.bind fun b : UInt8 => sig[5]?.map fun c : UInt8 =>
    lenR.toNat > 1 && b == 0x00 && c &&& 0x80 == 0) <|
  reject (sig[lenR.toNat + 4]?.map fun b : UInt8 => b ≠ 0x02) <|
  reject (some (lenS.toNat = 0)) <|
  reject (sig[lenR.toNat + 6]?.map fun b : UInt8 => b &&& 0x80 ≠ 0) <|
  reject (sig[lenR.toNat + 6]?.bind fun b : UInt8 => sig[lenR.toNat + 7]?.map fun c : UInt8 =>
    lenS.toNat > 1 && b == 0x00 && c &&& 0x80 == 0) <|
  some true

/-- A number that is not negative in the fewest bytes, the most significant one first. -/
def ShortestNumber : Bytes → Prop
  | [] => False
  | [a] => a &&& 0x80 = 0
  | a :: b :: _ => a &&& 0x80 = 0 ∧ (a = 0 → b &&& 0x80 ≠ 0)

variable {sig R S w : Bytes} {a l t lr t' ls h : UInt8}

lemma read_eq {i : ℕ} (inside : i < sig.length) : sig[i]? = some (sig.getD i 0) := by
  rw [getD_eq_getElem?_getD, getElem?_eq_getElem inside, Option.getD_some]

lemma reject_eq {bad next : Option Bool} {p : Prop} [Decidable p] {v : Bool}
  (read : bad = some (decide p)) (later : ¬p → next = some v) :
  reject bad next = some (if p then false else v) := by
  rw [read, reject, Option.bind_some]
  by_cases h : p
  · simp [h]
  · simpa [h] using later h

lemma readSignatureEncoding_eq (sig : Bytes) :
  readSignatureEncoding sig = some (isValidSignatureEncoding sig) := by
  -- a read is inside of the string by the tests that stand before it
  rw [readSignatureEncoding, isValidSignatureEncoding]
  dsimp only
  refine reject_eq rfl fun short => reject_eq rfl fun _ => ?_
  refine reject_eq (by rw [read_eq (by omega)]; rfl) fun _ => ?_
  refine reject_eq (by rw [read_eq (by omega)]; rfl) fun _ => ?_
  rw [read_eq (by omega : 3 < sig.length), Option.bind_some]
  refine reject_eq rfl fun far => ?_
  rw [read_eq (not_le.mp far), Option.bind_some]
  refine reject_eq rfl fun sum => ?_
  refine reject_eq (by rw [read_eq (by omega)]; rfl) fun _ => reject_eq rfl fun _ => ?_
  refine reject_eq (by rw [read_eq (by omega)]; rfl) fun _ => ?_
  refine reject_eq (by rw [read_eq (by omega), read_eq (by omega), Bool.decide_eq_true]; rfl)
    fun _ => ?_
  refine reject_eq (by rw [read_eq (by omega)]; rfl) fun _ => reject_eq rfl fun _ => ?_
  refine reject_eq (by rw [read_eq (by omega)]; rfl) fun _ => ?_
  exact reject_eq (by rw [read_eq (by omega), read_eq (by omega), Bool.decide_eq_true]; rfl)
    fun _ => rfl

lemma ite_eq_true {p : Prop} [Decidable p] {v : Bool} :
  (if p then false else v) = true ↔ ¬p ∧ v = true := by
  by_cases h : p <;> simp [h]

lemma getD_behind (eq : sig = a :: l :: t :: lr :: (R ++ w)) (i : ℕ) :
  sig.getD (R.length + i + 4) 0 = w.getD i 0 := by
  rw [eq]
  change (R ++ w).getD (R.length + i) 0 = _
  rw [getD_append_right _ _ _ _ (by omega), Nat.add_sub_cancel_left]

lemma shortestNumber_iff (n w : Bytes) : ShortestNumber n ↔ ¬n.length = 0 ∧
  ¬(n ++ w).getD 0 0 &&& 0x80 ≠ 0 ∧
  ¬(n.length > 1 && (n ++ w).getD 0 0 == 0 && (n ++ w).getD 1 0 &&& 0x80 == 0) = true := by
  rcases n with _ | ⟨b, _ | ⟨c, n⟩⟩ <;> simp [ShortestNumber]

lemma isValid_iff (eq : sig = a :: l :: t :: lr :: (R ++ t' :: ls :: (S ++ [h])))
  (hr : lr.toNat = R.length) (hs : ls.toNat = S.length) :
  isValidSignatureEncoding sig = true ↔ 9 ≤ sig.length ∧ sig.length ≤ 73 ∧ a = 0x30 ∧
    l.toNat = sig.length - 3 ∧ t = 0x02 ∧ ShortestNumber R ∧ t' = 0x02 ∧ ShortestNumber S := by
  have size : R.length + S.length + 7 = sig.length := by
    simp [eq]
    omega
  have front : sig.getD 0 0 = a ∧ sig.getD 1 0 = l ∧ sig.getD 2 0 = t ∧ sig.getD 3 0 = lr := by
    simp [eq]
  have first (i : ℕ) : sig.getD (i + 4) 0 = (R ++ t' :: ls :: (S ++ [h])).getD i 0 := by
    rw [eq]
    rfl
  have lenS : sig.getD (5 + R.length) 0 = ls := by
    rw [add_comm]
    exact getD_behind eq 1
  have at4 : sig.getD (R.length + 4) 0 = t' := getD_behind eq 0
  have at6 : sig.getD (R.length + 6) 0 = (S ++ [h]).getD 0 0 := getD_behind eq 2
  have at7 : sig.getD (R.length + 7) 0 = (S ++ [h]).getD 1 0 := getD_behind eq 3
  rw [isValidSignatureEncoding, shortestNumber_iff R (t' :: ls :: (S ++ [h])),
    shortestNumber_iff S [h], ← first 0, ← first 1]
  simp only [ite_eq_true, front, hr, hs, lenS, at4, at6, at7, not_lt, not_not, zero_add]
  constructor
  · rintro ⟨h1, h2, h3, h4, -, -, h5, h6, h7, h8, h9, h10, h11, h12, -⟩
    exact ⟨h1, h2, h3, h4, h5, ⟨h6, h7, h8⟩, h9, h10, h11, h12⟩
  · rintro ⟨h1, h2, h3, h4, h5, ⟨h6, h7, h8⟩, h9, h10, h11, h12⟩
    exact ⟨h1, h2, h3, h4, by omega, size, h5, h6, h7, h8, h9, h10, h11, h12, trivial⟩

lemma exists_parts (valid : isValidSignatureEncoding sig = true) : ∃ (a l t lr : UInt8) (R : Bytes)
  (t' ls : UInt8) (S : Bytes) (h : UInt8),
    sig = a :: l :: t :: lr :: (R ++ t' :: ls :: (S ++ [h])) ∧ lr.toNat = R.length ∧
      ls.toNat = S.length := by
  simp only [isValidSignatureEncoding, ite_eq_true] at valid
  obtain ⟨long, -, -, -, far, sum, -⟩ := valid
  rcases sig with _ | ⟨a, _ | ⟨l, _ | ⟨t, _ | ⟨lr, rest⟩⟩⟩⟩
  iterate 4 simp at long
  simp only [getD_cons_succ, getD_cons_zero, length_cons, not_le, not_not] at far sum
  have lenR : (rest.take lr.toNat).length = lr.toNat := length_take_of_le (by omega)
  rcases hd : rest.drop lr.toNat with _ | ⟨t', _ | ⟨ls, w⟩⟩
  iterate 2
    have short := congrArg length hd
    simp at short
    omega
  have eq : a :: l :: t :: lr :: rest =
    a :: l :: t :: lr :: (rest.take lr.toNat ++ t' :: ls :: w) := by
    rw [← hd, take_append_drop]
  have at5 := getD_behind eq 1
  rw [lenR, add_assoc, add_comm] at at5
  rw [at5] at sum
  have size := congrArg length hd
  simp only [length_drop, length_cons, getD_cons_succ, getD_cons_zero] at size sum
  have nonempty : w ≠ [] := by
    rintro rfl
    simp at size
    omega
  refine ⟨a, l, t, lr, _, t', ls, w.dropLast, w.getLast nonempty, ?_, lenR.symm, ?_⟩
  · rw [dropLast_append_getLast]
    exact eq
  · rw [length_dropLast]
    omega

/-- The accepted strings are those of the grammar, and no read is outside of the string. -/
theorem signatureEncoding_grammar (sig : Bytes) :
  (isValidSignatureEncoding sig = true ↔ 9 ≤ sig.length ∧ sig.length ≤ 73 ∧ ∃ R S hashtype,
    sig = 0x30 :: UInt8.ofNat (sig.length - 3) :: 0x02 :: UInt8.ofNat R.length ::
      (R ++ 0x02 :: UInt8.ofNat S.length :: (S ++ [hashtype])) ∧
    ShortestNumber R ∧ ShortestNumber S) ∧
  readSignatureEncoding sig = some (isValidSignatureEncoding sig) := by
  refine ⟨⟨fun valid => ?_, ?_⟩, readSignatureEncoding_eq sig⟩
  · obtain ⟨a, l, t, lr, R, t', ls, S, h, eq, hr, hs⟩ := exists_parts valid
    obtain ⟨low, high, rfl, hl, rfl, shortR, rfl, shortS⟩ := (isValid_iff eq hr hs).mp valid
    refine ⟨low, high, R, S, h, ?_, shortR, shortS⟩
    rw [← hl, ← hr, ← hs, UInt8.ofNat_toNat, UInt8.ofNat_toNat, UInt8.ofNat_toNat]
    exact eq
  · rintro ⟨low, high, R, S, h, eq, shortR, shortS⟩
    have size := congrArg length eq
    simp only [length_cons, length_append, length_nil] at size
    have toNat {n : ℕ} : n < 256 → (UInt8.ofNat n).toNat = n := UInt8.toNat_ofNat_of_lt'
    exact (isValid_iff eq (toNat (by omega)) (toNat (by omega))).mpr
      ⟨low, high, rfl, toNat (by omega), rfl, shortR, rfl, shortS⟩

end

inductive NumberFault
  | overflow
  | nonMinimal
  | undefinedShift

/-- The constructor of `CScriptNum` from bytes: from the ninth byte on, `set_vch` shifts a 64-bit
number by its width, which is undefined. -/
def cScriptNum (vch : Bytes) (fRequireMinimal : Bool) (nMaxNumSize : ℕ) :
  Except NumberFault Int := do
  failIf (vch.length > nMaxNumSize) .overflow
  failIf (fRequireMinimal && !isMinimal vch) .nonMinimal
  failIf (vch.length > 8) .undefinedShift
  .ok (decode vch)

/-- The sign bit and the magnitude. -/
def parts : Bytes → Bool × ℕ
  | [] => (false, 0)
  | [b] => (128 ≤ b.toNat, b.toNat % 128)
  | b :: c :: rest => ((parts (c :: rest)).1, b.toNat + 256 * (parts (c :: rest)).2)

variable {v : Bytes} {neg : Bool} {k m : ℕ}

lemma forall_byte {P : UInt8 → Prop} (all : ∀ b : Fin 256, P (.ofFin b)) (b : UInt8) : P b :=
  all b.toFin

lemma top_bit : ∀ b : UInt8, b &&& 0x80 ≠ 0 ↔ 128 ≤ b.toNat := forall_byte (by decide +kernel)

lemma low_bits : ∀ b : UInt8, b &&& 0x7f ≠ 0 ↔ b.toNat % 128 ≠ 0 := forall_byte (by decide +kernel)

lemma sign_singleton : ∀ (b : UInt8) (neg : Bool), 0 < b.toNat →
  parts (sign neg [b]) = (neg, b.toNat) ∧ isMinimal (sign neg [b]) = true ∧
    (sign neg [b]).length ≤ if 128 ≤ b.toNat then 2 else 1 :=
  forall_byte (by decide +kernel)

lemma sign_low : ∀ b : UInt8, 0 < b.toNat % 128 →
  sign (128 ≤ b.toNat) [UInt8.ofNat (b.toNat % 128)] = [b] :=
  forall_byte (by decide +kernel)

lemma sign_byte : ∀ c : UInt8, c.toNat % 128 = 0 → (if 128 ≤ c.toNat then 0x80 else 0) = c :=
  forall_byte (by decide +kernel)

lemma top_parts (v : Bytes) : v.getLastD 0 &&& 0x80 ≠ 0 ↔ (parts v).1 = true := by
  fun_induction parts with
  | case1 => simp
  | case2 b => simpa using top_bit b
  | case3 b c rest ih => simpa [getLastD] using ih

lemma readLE_parts (v : Bytes) :
  (readLE v : ℤ) = (parts v).2 + if (parts v).1 then 0x80 * 256 ^ (v.length - 1) else 0 := by
  fun_induction parts with
  | case1 => rfl
  | case2 b =>
    have := b.toNat_lt
    simp only [readLE, decide_eq_true_eq, length_singleton]
    split_ifs <;> omega
  | case3 b c rest ih =>
    rw [readLE, Nat.cast_add, Nat.cast_mul, ih]
    split_ifs
    · simp only [length_cons, add_tsub_cancel_right, pow_succ]
      push_cast
      ring
    · simp

lemma parts_lt (v : Bytes) : (parts v).2 < 256 ^ v.length := by
  fun_induction parts with
  | case1 => decide
  | case2 b =>
    rw [length_singleton]
    omega
  | case3 b c rest ih =>
    have := b.toNat_lt
    rw [length_cons, pow_succ]
    omega

lemma decode_eq (v : Bytes) :
  decode v = if (parts v).1 then -((parts v).2 : ℤ) else (parts v).2 := by
  rw [decode, readLE_parts]
  simp only [top_parts]
  split_ifs
  · rw [add_sub_cancel_right]
  · rw [add_zero]

lemma isMinimal_singleton (b : UInt8) : isMinimal [b] = true ↔ b.toNat % 128 ≠ 0 := by
  rw [← low_bits]
  simp [isMinimal]

lemma isMinimal_cons {b c : UInt8} {rest : Bytes} : isMinimal (b :: c :: rest) = true ↔
  isMinimal (c :: rest) = true ∨ rest = [] ∧ 128 ≤ b.toNat := by
  rw [← top_bit]
  cases rest with
  | nil => simp [isMinimal]
  | cons d rest => simp [isMinimal, getLastD]

lemma sign_cons {b : UInt8} (nonempty : v ≠ []) : sign neg (b :: v) = b :: sign neg v := by
  cases v with
  | nil => exact absurd rfl nonempty
  | cons c v => rfl

lemma sign_ne_nil (nonempty : v ≠ []) : sign neg v ≠ [] := by
  fun_cases sign <;> simp_all

lemma magnitude_small (pos : 0 < m) (small : m < 256) : magnitude (k + 1) m = [UInt8.ofNat m] := by
  rw [magnitude, if_neg pos.ne', Nat.div_eq_of_lt small]
  cases k <;> rfl

/-- What is written is minimal, and has the sign and the magnitude it was written for. -/
lemma sign_magnitude (neg : Bool) (pos : 0 < m) (fits : m < 256 ^ k) :
  parts (sign neg (magnitude k m)) = (neg, m) ∧ isMinimal (sign neg (magnitude k m)) = true ∧
    (2 * m < 256 ^ k → (sign neg (magnitude k m)).length ≤ k) := by
  induction k generalizing m with
  | zero => omega
  | succ k ih =>
    have low : (UInt8.ofNat m).toNat = m % 256 := UInt8.toNat_ofNat'
    by_cases small : m < 256
    · -- the last byte of the magnitude, where the sign may need a byte of its own
      rw [magnitude_small pos small]
      obtain ⟨byte, minimal, length⟩ := sign_singleton (UInt8.ofNat m) neg (by omega)
      rw [low, Nat.mod_eq_of_lt small] at byte length
      refine ⟨byte, minimal, fun half => length.trans ?_⟩
      rcases k with _ | k
      · rw [if_neg (by omega)]
      · split_ifs <;> omega
    rw [pow_succ] at fits
    obtain ⟨rest, minimal, length⟩ := ih (m := m / 256) (by omega) (by omega)
    have nonempty : magnitude k (m / 256) ≠ [] := by
      intro none
      rw [none] at rest
      have := congrArg Prod.snd rest
      simp [sign, parts] at this
      omega
    rw [magnitude, if_neg pos.ne', sign_cons nonempty]
    rcases hs : sign neg (magnitude k (m / 256)) with _ | ⟨c, w⟩
    · exact absurd hs (sign_ne_nil nonempty)
    rw [hs] at rest minimal length
    refine ⟨?_, isMinimal_cons.mpr (.inl minimal), fun half => ?_⟩
    · rw [parts, rest, low]
      exact Prod.ext rfl (Nat.mod_add_div m 256)
    · rw [pow_succ] at half
      exact Nat.succ_le_succ (length (by omega))

/-- A minimal string is what is written for its sign and magnitude. -/
lemma sign_parts (minimal : isMinimal v = true) (nonempty : v ≠ []) (fits : v.length ≤ k) :
  0 < (parts v).2 ∧ sign (parts v).1 (magnitude k (parts v).2) = v := by
  induction v generalizing k with
  | nil => exact absurd rfl nonempty
  | cons b v ih =>
    obtain ⟨k, rfl⟩ : ∃ j, k = j + 1 := ⟨k - 1, by simp at fits; omega⟩
    have low := b.toNat_lt
    cases v with
    | nil =>
      have pos := pos_of_ne_zero ((isMinimal_singleton b).mp minimal)
      refine ⟨pos, ?_⟩
      rw [parts, magnitude_small pos (by omega)]
      exact sign_low b pos
    | cons c v =>
      rw [parts]
      by_cases rest : isMinimal (c :: v) = true
      · obtain ⟨pos, eq⟩ := ih rest (by simp) (by simpa using fits)
        have byte : UInt8.ofNat (b.toNat + 256 * (parts (c :: v)).2) = b := by
          apply UInt8.toNat_inj.mp
          rw [UInt8.toNat_ofNat']
          omega
        refine ⟨by omega, ?_⟩
        rw [magnitude, if_neg (by omega), byte,
          (by omega : (_ + 256 * _) / 256 = (parts (c :: v)).2), sign_cons, eq]
        rintro none
        rw [none] at eq
        cases eq
      · -- the last byte has the sign only
        obtain ⟨rfl, high⟩ := (isMinimal_cons.mp minimal).resolve_left rest
        have zero : c.toNat % 128 = 0 := by simpa [isMinimal_singleton] using rest
        simp only [parts, zero, mul_zero, add_zero]
        refine ⟨by omega, ?_⟩
        rw [magnitude_small (by omega) low, UInt8.ofNat_toNat, sign, if_pos ((top_bit b).mpr high)]
        simpa using sign_byte c zero

lemma decode_serialize {n : ℤ} (fits : n.natAbs < 2 ^ 63) :
  decode (serialize n) = n ∧ isMinimal (serialize n) = true ∧ (serialize n).length ≤ 8 := by
  rcases eq_or_ne n 0 with rfl | ne
  · decide
  obtain ⟨written, minimal, length⟩ :=
    sign_magnitude (n < 0) (Int.natAbs_pos.mpr ne) (by omega : n.natAbs < 256 ^ 8)
  refine ⟨?_, minimal, length (by omega)⟩
  rw [decode_eq, serialize, written]
  simp only [decide_eq_true_eq]
  split_ifs <;> omega

lemma serialize_decode (minimal : isMinimal v = true) (fits : v.length ≤ 8) :
  serialize (decode v) = v := by
  rcases eq_or_ne v [] with rfl | nonempty
  · rfl
  obtain ⟨pos, eq⟩ := sign_parts minimal nonempty fits
  rw [serialize, decode_eq]
  cases h : (parts v).1 with
  | true => simpa [h, pos] using eq
  | false => simpa [h, (Int.natCast_nonneg (parts v).2).not_gt] using eq

lemma cScriptNum_eq_ok {nMaxNumSize : ℕ} {m : ℤ} : cScriptNum v true nMaxNumSize = .ok m ↔
  v.length ≤ nMaxNumSize ∧ isMinimal v = true ∧ v.length ≤ 8 ∧ decode v = m := by
  simp [cScriptNum, unless_eq_ok]

/-- Except for the least one every 64-bit number comes back from its encoding, and the minimal
strings are the encodings. -/
theorem scriptNum_encoding :
  (∀ n : ℤ, -2 ^ 63 < n → n < 2 ^ 63 → ∀ nMaxNumSize, (serialize n).length ≤ nMaxNumSize →
    cScriptNum (serialize n) true nMaxNumSize = .ok n) ∧
  (∀ v nMaxNumSize, nMaxNumSize = 4 ∨ nMaxNumSize = 5 → v.length ≤ nMaxNumSize → ∀ m,
    cScriptNum v true nMaxNumSize = .ok m ↔ -2 ^ 63 ≤ m ∧ m < 2 ^ 63 ∧ v = serialize m) ∧
  Monotone getint ∧ ∀ m, getint m = max (-2 ^ 31) (min m (2 ^ 31 - 1)) := by
  have clamp : ∀ m, getint m = max (-2 ^ 31) (min m (2 ^ 31 - 1)) := by
    intro m
    rw [getint]
    split_ifs <;> omega
  refine ⟨fun n low high size enough => ?_, fun v size sizes enough m => ?_, fun a b le => ?_,
    clamp⟩
  · obtain ⟨eq, minimal, length⟩ := decode_serialize (by omega : n.natAbs < 2 ^ 63)
    exact cScriptNum_eq_ok.mpr ⟨enough, minimal, length, eq⟩
  · rw [cScriptNum_eq_ok]
    constructor
    · rintro ⟨-, minimal, short, rfl⟩
      have small := (parts_lt v).trans_le (Nat.pow_le_pow_right (by simp) (by omega : v.length ≤ 5))
      refine ⟨?_, ?_, (serialize_decode minimal short).symm⟩
      all_goals
        rw [decode_eq]
        split_ifs <;> omega
    · rintro ⟨low, high, rfl⟩
      rcases low.eq_or_lt with rfl | low
      · -- the least number is written in more bytes than are decoded
        have nine : (serialize (-2 ^ 63)).length = 9 := rfl
        omega
      obtain ⟨eq, minimal, length⟩ := decode_serialize (by omega : m.natAbs < 2 ^ 63)
      exact ⟨enough, minimal, length, eq⟩
  · rw [clamp, clamp]
    omega

/-- The encoding of the least 64-bit number has nine bytes. -/
theorem scriptNum_min : (serialize (-2 ^ 63)).length = 9 ∧
  cScriptNum (serialize (-2 ^ 63)) true 9 = .error .undefinedShift :=
  ⟨rfl, rfl⟩

end ScriptEncodings
