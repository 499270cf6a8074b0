import Andaluzcoin.StreamReader
import Andaluzcoin.Script

/-!
# Serialization

The formats of `serialize.h` that transactions and coins are made of: fixed-width integers,
`CompactSize`, `VARINT` and vectors. A stream is the list of the bytes that are left in it, and what
a reader throws is the text of its `ios_base::failure`.
-/

namespace Serialize

open Script StreamReader List Nat

abbrev Stream (α : Type) := Reader String UInt8 α

def maxSize : ℕ := 0x02000000

/-- `DataStream::read`. -/
def read (n : ℕ) : Stream Bytes := take "DataStream::read(): end of data" n

/-- `DataStream::ignore`. -/
def ignore (n : ℕ) : Stream Unit := do
  let _ ← take "DataStream::ignore(): end of data" n
  pure ()

/-- An unsigned integer of a number of bytes, `ser_readdata8` to `ser_readdata64`. -/
def serReaddata (size : ℕ) : Stream ℕ := do
  let bytes ← read size
  pure (readLE bytes)

/-- The conversion of an `int64_t` to a `uint64_t`. -/
def toUint64 (n : ℤ) : ℕ := (n % 2 ^ 64).toNat

/-- The conversion of a `uint64_t` to an `int64_t`. -/
def toInt64 (n : ℕ) : ℤ := if n < 2 ^ 63 then n else n - 2 ^ 64

def getSizeOfCompactSize (nSize : ℕ) : ℕ :=
  if nSize < 253 then 1 else if nSize ≤ 0xffff then 1 + 2
  else if nSize ≤ 0xffffffff then 1 + 4 else 1 + 8

def writeCompactSize (nSize : ℕ) : Bytes :=
  if nSize < 253 then writeLE 1 nSize
  else if nSize ≤ 0xffff then writeLE 1 253 ++ writeLE 2 nSize
  else if nSize ≤ 0xffffffff then writeLE 1 254 ++ writeLE 4 nSize
  else writeLE 1 255 ++ writeLE 8 nSize

/-- The forms after a marker, which hold numbers that have no shorter form. -/
def readLongSize (size minimum : ℕ) : Stream ℕ := do
  let nSizeRet ← serReaddata size
  if nSizeRet < minimum then fail "non-canonical ReadCompactSize()" else pure nSizeRet

/-- `ReadCompactSize` before the check of the range. -/
def readAnySize : Stream ℕ := do
  let chSize ← serReaddata 1
  if chSize < 253 then pure chSize
  else if chSize = 253 then readLongSize 2 253
  else if chSize = 254 then readLongSize 4 0x10000
  else readLongSize 8 0x100000000

/-- `ReadCompactSize` with the check of the range. -/
def readCompactSize : Stream ℕ := do
  let nSizeRet ← readAnySize
  if nSizeRet > maxSize then fail "ReadCompactSize(): size too large" else pure nSizeRet

def getSizeOfVarInt (n : ℕ) : ℕ :=
  if n ≤ 0x7f then 1 else getSizeOfVarInt ((n >>> 7) - 1) + 1
  termination_by n
  decreasing_by
    rw [shiftRight_eq_div_pow]
    omega

/-- A byte of seven bits of a number, with a mark when others follow it. -/
def varIntByte (more : Bool) (n : ℕ) : UInt8 :=
  UInt8.ofNat (n &&& 0x7f ||| if more then 0x80 else 0x00)

/-- The loop of `WriteVarInt`, which finds the last byte first; there is room for as many bytes as
the type can need. -/
def writeVarIntLoop : ℕ → Bool → ℕ → Bytes
  | 0, _, _ => []
  | room + 1, more, n =>
    if n ≤ 0x7f then [varIntByte more n]
    else writeVarIntLoop room true ((n >>> 7) - 1) ++ [varIntByte more n]

/-- `WriteVarInt` of an unsigned type with a number of bits. -/
def writeVarInt (bits n : ℕ) : Bytes := writeVarIntLoop ((bits + 6) / 7) false n

/-- The loop of `ReadVarInt`. -/
def readVarIntLoop (bits : ℕ) : ℕ → Bytes → Except String (ℕ × Bytes)
  | _, [] => .error "DataStream::read(): end of data"
  | n, chData :: rest =>
    if n > (2 ^ bits - 1) >>> 7 then .error "ReadVarInt(): size too large"
    else
      let n := (n <<< 7) ||| (chData.toNat &&& 0x7f)
      if chData.toNat &&& 0x80 ≠ 0 then
        if n = 2 ^ bits - 1 then .error "ReadVarInt(): size too large"
        else readVarIntLoop bits (n + 1) rest
      else .ok (n, rest)

def readVarInt (bits : ℕ) : Stream ℕ := readVarIntLoop bits 0

/-- A vector of bytes. -/
def serBytes (v : Bytes) : Bytes := writeCompactSize v.length ++ v

def unserBytes : Stream Bytes := do
  let nSize ← readCompactSize
  read nSize

/-- `VectorFormatter`. -/
def serVector {α : Type} (ser : α → Bytes) (v : List α) : Bytes :=
  writeCompactSize v.length ++ v.flatMap ser

def unserVector {α : Type} (unser : Stream α) : Stream (List α) := do
  let size ← readCompactSize
  times unser size

lemma length_writeLE (size n : ℕ) : (writeLE size n).length = size := by
  induction size generalizing n with
  | zero => rfl
  | succ size ih => rw [writeLE, length_cons, ih]

lemma readLE_writeLE {size n : ℕ} (fits : n < 256 ^ size) : readLE (writeLE size n) = n := by
  induction size generalizing n with
  | zero =>
    have zero : n = 0 := by simpa using fits
    rw [writeLE, readLE, zero]
  | succ size ih =>
    have rest : n / 256 < 256 ^ size := by
      rw [div_lt_iff_lt_mul (by decide)]
      rwa [pow_succ] at fits
    rw [writeLE, readLE, ih rest, UInt8.toNat_ofNat']
    omega

lemma writeLE_readLE (bytes : Bytes) : writeLE bytes.length (readLE bytes) = bytes := by
  induction bytes with
  | nil => rfl
  | cons b bytes ih =>
    have small := b.toNat_lt
    have low : UInt8.ofNat (b.toNat + 256 * readLE bytes) = b := by
      apply UInt8.toNat_inj.mp
      rw [UInt8.toNat_ofNat']
      omega
    have high : (b.toNat + 256 * readLE bytes) / 256 = readLE bytes := by omega
    rw [length_cons, readLE, writeLE, low, high, ih]

lemma readLE_lt (bytes : Bytes) : readLE bytes < 256 ^ bytes.length := by
  induction bytes with
  | nil => decide
  | cons b bytes ih =>
    have small := b.toNat_lt
    rw [readLE, length_cons, pow_succ]
    omega

lemma toInt64_toUint64 {n : ℤ} (lower : -2 ^ 63 ≤ n) (upper : n < 2 ^ 63) :
  toInt64 (toUint64 n) = n := by
  rw [toInt64, toUint64]
  split_ifs <;> omega

lemma toUint64_toInt64 {n : ℕ} (fits : n < 2 ^ 64) : toUint64 (toInt64 n) = n := by
  rw [toInt64, toUint64]
  split_ifs <;> omega

lemma toUint64_lt (n : ℤ) : toUint64 n < 2 ^ 64 := by
  rw [toUint64]
  omega

section
variable {input rest : Bytes} {minimum n nSize size : ℕ}

lemma serReaddata_reads (fits : n < 256 ^ size) : Reads (serReaddata size) (writeLE size n) n := by
  refine (reads_take _ (length_writeLE size n)).bind_last ?_
  rw [readLE_writeLE fits]

lemma serReaddata_eq_ok (eq : serReaddata size input = .ok (n, rest)) :
  n < 256 ^ size ∧ input = writeLE size n ++ rest := by
  obtain ⟨bytes, taken, rfl⟩ := bind_pure_eq_ok.mp eq
  obtain ⟨rfl, rfl⟩ := take_eq_ok.mp taken
  rw [writeLE_readLE]
  exact ⟨readLE_lt bytes, rfl⟩

lemma serReaddata_canonical (size : ℕ) : Canonical (serReaddata size) (writeLE size) :=
  fun _ _ _ eq => (serReaddata_eq_ok eq).2

lemma readLongSize_reads (fits : n < 256 ^ size) (hl : minimum ≤ n) :
  Reads (readLongSize size minimum) (writeLE size n) n :=
  (serReaddata_reads fits).bind_last (if_neg (not_lt.mpr hl))

lemma readLongSize_eq_ok (eq : readLongSize size minimum input = .ok (n, rest)) :
  minimum ≤ n ∧ n < 256 ^ size ∧ input = writeLE size n ++ rest := by
  obtain ⟨n', middle, value, eq⟩ := bind_eq_ok.mp eq
  split_ifs at eq with hs
  · exact absurd eq fail_ne_ok
  · obtain ⟨rfl, rfl⟩ := pure_eq_ok.mp eq
    exact ⟨not_lt.mp hs, serReaddata_eq_ok value⟩

lemma readAnySize_reads (fits : nSize < 2 ^ 64) :
  Reads readAnySize (writeCompactSize nSize) nSize := by
  rw [writeCompactSize]
  split_ifs with one two four
  · exact (serReaddata_reads (by omega)).bind_last (if_pos one)
  all_goals
    refine (serReaddata_reads (by decide)).bind ?_
    exact readLongSize_reads (by omega) (by omega)

lemma readAnySize_canonical : Canonical readAnySize writeCompactSize := by
  intro input nSize rest ha
  obtain ⟨chSize, middle, marker, eq⟩ := bind_eq_ok.mp ha
  obtain ⟨hs, rfl⟩ := serReaddata_eq_ok marker
  rw [writeCompactSize]
  split_ifs at eq with one two four
  · obtain ⟨rfl, rfl⟩ := pure_eq_ok.mp eq
    rw [if_pos one]
  · obtain ⟨least, hf, rfl⟩ := readLongSize_eq_ok eq
    rw [if_neg (by omega), if_pos (by omega), two, append_assoc]
  · obtain ⟨least, hf, rfl⟩ := readLongSize_eq_ok eq
    rw [if_neg (by omega), if_neg (by omega), if_pos (by omega), four, append_assoc]
  · obtain ⟨least, hf, rfl⟩ := readLongSize_eq_ok eq
    have last : chSize = 255 := by omega
    rw [if_neg (by omega), if_neg (by omega), if_neg (by omega), last, append_assoc]

lemma readCompactSize_reads (fits : nSize ≤ maxSize) :
  Reads readCompactSize (writeCompactSize nSize) nSize := by
  have small : nSize < 2 ^ 64 := fits.trans_lt (by decide)
  exact (readAnySize_reads small).bind_last (if_neg (not_lt.mpr fits))

lemma readCompactSize_canonical : Canonical readCompactSize writeCompactSize := by
  intro input nSize rest eq
  obtain ⟨n', middle, value, eq⟩ := bind_eq_ok.mp eq
  split_ifs at eq with large
  · exact absurd eq fail_ne_ok
  · obtain ⟨rfl, rfl⟩ := pure_eq_ok.mp eq
    exact readAnySize_canonical input _ _ value

lemma readCompactSize_too_large (fits : nSize < 2 ^ 64) (hl : maxSize < nSize) (rest : Bytes) :
  readCompactSize (writeCompactSize nSize ++ rest)
    = .error "ReadCompactSize(): size too large" := by
  rw [readCompactSize, (readAnySize_reads fits).bind_apply, if_pos hl]
  rfl

end

section
variable {bits n : ℕ}

lemma varIntByte_eq (more : Bool) (n : ℕ) :
  (varIntByte more n).toNat = n % 128 + if more then 128 else 0 := by
  have low : n % 2 ^ 7 < 2 ^ 7 := mod_lt n (by decide)
  have mask := and_two_pow_sub_one_eq_mod n 7
  rw [varIntByte, mask, UInt8.toNat_ofNat']
  cases more with
  | false =>
    rw [if_neg Bool.false_ne_true, or_zero]
    omega
  | true =>
    have sum : n % 2 ^ 7 ||| 0x80 = 2 ^ 7 * 1 + n % 2 ^ 7 := by
      rw [two_pow_add_eq_or_of_lt low 1, Nat.or_comm]
    rw [if_pos rfl, sum]
    omega

lemma marked_iff (b : UInt8) : b.toNat &&& 0x80 ≠ 0 ↔ 128 ≤ b.toNat := by
  have hb := b.toNat_lt
  rw [show 0x80 = 2 ^ 7 from rfl, and_two_pow, testBit_eq_decide_div_mod_eq]
  simp
  omega

lemma append_byte (k : ℕ) (b : UInt8) :
  k <<< 7 ||| (b.toNat &&& 0x7f) = k * 128 + b.toNat % 128 := by
  rw [show 0x7f = 2 ^ 7 - 1 from rfl, and_two_pow_sub_one_eq_mod, shiftLeft_eq, mul_comm,
    ← two_pow_add_eq_or_of_lt (mod_lt _ (by decide))]

section
variable (more : Bool) (fits : n < 2 ^ bits) (hl : more = true → n + 1 < 2 ^ bits)
include more fits hl

/-- One byte takes the reader from the number without its seven last bits to the number. -/
lemma readVarIntLoop_byte (rest : Bytes) : readVarIntLoop bits (n / 128) (varIntByte more n :: rest)
    = if more then readVarIntLoop bits (n + 1) rest else .ok (n, rest) := by
  have byte := varIntByte_eq more n
  have value : n / 128 * 128 + (varIntByte more n).toNat % 128 = n := by
    rw [byte]
    split_ifs <;> omega
  have room : ¬ n / 128 > (2 ^ bits - 1) >>> 7 := by
    rw [shiftRight_eq_div_pow]
    exact not_lt.mpr (Nat.div_le_div_right (by omega))
  rw [readVarIntLoop, if_neg room, append_byte, value]
  simp only [marked_iff]
  rw [byte]
  cases more with
  | false => rw [if_neg Bool.false_ne_true, if_neg (by omega), if_neg Bool.false_ne_true]
  | true =>
    have notMax : ¬ n = 2 ^ bits - 1 := by
      have := hl rfl
      omega
    rw [if_pos rfl, if_pos (by omega), if_neg notMax, if_pos rfl]

/-- The bytes of a number are read as the number; where others follow they leave the reader at one
more. -/
lemma readVarIntLoop_reads {room : ℕ} (he : n < 128 ^ (room + 1)) (rest : Bytes) :
  readVarIntLoop bits 0 (writeVarIntLoop (room + 1) more n ++ rest)
    = if more then readVarIntLoop bits (n + 1) rest else .ok (n, rest) := by
  have byte := readVarIntLoop_byte more fits hl rest
  induction room generalizing more n rest with
  | zero =>
    have small : n ≤ 0x7f := by omega
    rw [div_eq_of_lt (by omega)] at byte
    rw [writeVarIntLoop, if_pos small]
    exact byte
  | succ room ih =>
    rw [writeVarIntLoop]
    by_cases small : n ≤ 0x7f
    · rw [div_eq_of_lt (by omega)] at byte
      rw [if_pos small]
      exact byte
    -- the bytes in front leave the reader where this byte starts
    have parent : n >>> 7 - 1 + 1 = n / 128 := by
      rw [shiftRight_eq_div_pow]
      omega
    have fewer : n / 128 < 128 ^ (room + 1) := by
      rw [div_lt_iff_lt_mul (by decide)]
      rwa [pow_succ] at he
    have fits' : n >>> 7 - 1 + 1 < 2 ^ bits := by omega
    have front := ih true (by omega) (fun _ => fits') (by omega) (varIntByte more n :: rest)
      (readVarIntLoop_byte true (by omega) (fun _ => fits') _)
    rw [if_neg small, append_assoc, singleton_append, front, if_pos rfl, parent]
    exact byte

end

/-- The buffer has a byte, and bytes for every number of the type. -/
lemma exists_room (pos : 0 < bits) :
  ∃ room, (bits + 6) / 7 = room + 1 ∧ 2 ^ bits ≤ 128 ^ (room + 1) := by
  refine ⟨(bits + 6) / 7 - 1, by omega, ?_⟩
  rw [show 128 = 2 ^ 7 from rfl, ← pow_mul]
  exact Nat.pow_le_pow_right (by decide) (by omega)

lemma readVarInt_reads (pos : 0 < bits) (fits : n < 2 ^ bits) :
  Reads (readVarInt bits) (writeVarInt bits n) n := by
  intro rest
  obtain ⟨room, eq, wide⟩ := exists_room pos
  rw [readVarInt, writeVarInt, eq]
  exact readVarIntLoop_reads false fits (fun more => absurd more Bool.false_ne_true)
    (fits.trans_le wide) rest

lemma length_writeVarIntLoop {room : ℕ} (more : Bool) (he : n < 128 ^ (room + 1)) :
  (writeVarIntLoop (room + 1) more n).length = getSizeOfVarInt n ∧
    getSizeOfVarInt n ≤ room + 1 := by
  induction room generalizing more n with
  | zero =>
    rw [writeVarIntLoop, getSizeOfVarInt, if_pos (by omega), if_pos (by omega)]
    exact ⟨rfl, le_rfl⟩
  | succ room ih =>
    rw [writeVarIntLoop, getSizeOfVarInt]
    split_ifs with small
    · exact ⟨rfl, by omega⟩
    have fewer : n >>> 7 - 1 < 128 ^ (room + 1) := by
      rw [pow_succ] at he
      rw [shiftRight_eq_div_pow]
      omega
    obtain ⟨length, le⟩ := ih true fewer
    rw [length_append, length]
    exact ⟨rfl, by omega⟩

lemma varIntByte_append (k : ℕ) (b : UInt8) :
  varIntByte (128 ≤ b.toNat) (k * 128 + b.toNat % 128) = b := by
  have hb := b.toNat_lt
  refine UInt8.toNat_inj.mp ?_
  rw [varIntByte_eq]
  by_cases marked : 128 ≤ b.toNat <;> simp [marked] <;> omega

/-- What is read after some bytes is written as those bytes and the ones read. -/
lemma readVarIntLoop_canonical {k : ℕ} {p input rest : Bytes} (wide : 7 ≤ bits)
  (before : k = 0 ∧ p = [] ∨ ∃ v, k = v + 1 ∧
    ∀ room, v < 128 ^ (room + 1) → writeVarIntLoop (room + 1) true v = p)
  (eq : readVarIntLoop bits k input = .ok (n, rest)) : n < 2 ^ bits ∧ ∀ room, n < 128 ^ (room + 1) →
    p ++ input = writeVarIntLoop (room + 1) false n ++ rest := by
  induction input generalizing k p with
  | nil => cases eq
  | cons b input ih =>
    have byte := varIntByte_append k b
    rw [readVarIntLoop, append_byte] at eq
    simp only [marked_iff] at eq
    generalize hn : k * 128 + b.toNat % 128 = n' at eq byte
    have last (room : ℕ) (he : n' < 128 ^ (room + 1)) :
      writeVarIntLoop (room + 1) (128 ≤ b.toNat) n' = p ++ [b] := by
      rw [writeVarIntLoop, byte]
      rcases before with ⟨rfl, rfl⟩ | ⟨v, rfl, front⟩
      · rw [if_pos (by omega), nil_append]
      · cases room with
        | zero => omega
        | succ room =>
          rw [pow_succ] at he
          have parent : n' >>> 7 - 1 = v := by
            rw [shiftRight_eq_div_pow]
            omega
          rw [if_neg (by omega), parent, front room (by omega)]
    split_ifs at eq with large marked
    · rw [decide_eq_true marked] at last
      obtain ⟨hn, written⟩ := ih (.inr ⟨n', rfl, last⟩) eq
      refine ⟨hn, fun room he => ?_⟩
      rw [← written room he, append_assoc, singleton_append]
    · obtain ⟨rfl, rfl⟩ := Prod.mk.inj (Except.ok.inj eq)
      constructor
      · have := Nat.two_pow_pos bits
        obtain ⟨c, hc⟩ := pow_dvd_pow 2 wide
        rw [shiftRight_eq_div_pow] at large
        omega
      · intro room he
        rw [← decide_eq_false marked, last room he, append_assoc, singleton_append]

/-- `VARINT` and `CompactSize` are bijections between the numbers of a type and the accepted bytes. -/
theorem sizes_bijective : (∀ size, 0 < size →
    (∀ p n rest, readVarInt (8 * size) (p ++ rest) = .ok (n, rest) ↔
      n < 2 ^ (8 * size) ∧ p = writeVarInt (8 * size) n) ∧
    ∀ n < 2 ^ (8 * size), (writeVarInt (8 * size) n).length = getSizeOfVarInt n ∧
      getSizeOfVarInt n ≤ (8 * size + 6) / 7) ∧ (∀ p n rest, n < 2 ^ 64 →
    (readAnySize (p ++ rest) = .ok (n, rest) ↔ p = writeCompactSize n)) ∧
  ∀ n, (writeCompactSize n).length = getSizeOfCompactSize n := by
  refine ⟨fun size hs => ?_, fun p n rest fits => ?_, fun n => ?_⟩
  · obtain ⟨room, eq, wide⟩ := exists_room (show 0 < 8 * size by omega)
    refine ⟨fun p n rest => ⟨fun read => ?_, ?_⟩, fun n fits => ?_⟩
    · obtain ⟨fits, written⟩ := readVarIntLoop_canonical (by omega) (.inl ⟨rfl, rfl⟩) read
      refine ⟨fits, (append_left_inj rest).mp ?_⟩
      rw [writeVarInt, eq, ← written room (fits.trans_le wide), nil_append]
    · rintro ⟨fits, rfl⟩
      exact readVarInt_reads (by omega) fits rest
    · rw [writeVarInt, eq]
      exact length_writeVarIntLoop false (fits.trans_le wide)
  · constructor
    · intro read
      exact append_cancel_right (readAnySize_canonical _ _ _ read)
    · rintro rfl
      exact readAnySize_reads fits rest
  · rw [writeCompactSize, getSizeOfCompactSize]
    split_ifs <;> simp [length_writeLE]

end

variable {v : Bytes}

lemma unserBytes_reads (fits : v.length ≤ maxSize) : Reads unserBytes (serBytes v) v :=
  (readCompactSize_reads fits).bind (reads_take _ rfl)

lemma unserBytes_too_large (fits : v.length < 2 ^ 64) (hl : maxSize < v.length) (rest : Bytes) :
  unserBytes (serBytes v ++ rest) = .error "ReadCompactSize(): size too large" := by
  rw [serBytes, append_assoc]
  exact bind_eq_error (readCompactSize_too_large fits hl _) _

lemma unserBytes_canonical : Canonical unserBytes serBytes := by
  intro input v rest ha
  obtain ⟨nSize, middle, size, taken⟩ := bind_eq_ok.mp ha
  obtain ⟨rfl, rfl⟩ := take_eq_ok.mp taken
  rw [readCompactSize_canonical _ _ _ size, serBytes, append_assoc]

variable {α : Type} {unser : Stream α} {ser : α → Bytes}

lemma unserVector_reads {v : List α} (fits : v.length ≤ maxSize)
  (hr : ∀ a ∈ v, Reads unser (ser a) a) : Reads (unserVector unser) (serVector ser v) v :=
  (readCompactSize_reads fits).bind (Reads.times hr)

lemma unserVector_canonical (hc : Canonical unser ser) :
  Canonical (unserVector unser) (serVector ser) := by
  intro input v rest ha
  obtain ⟨size, middle, count, elements⟩ := bind_eq_ok.mp ha
  obtain ⟨rfl, rfl⟩ := hc.times elements
  rw [readCompactSize_canonical _ _ _ count, serVector, append_assoc]

end Serialize
