import Mathlib.Data.List.Induction
import Mathlib.Data.Nat.Bitwise
import Mathlib.Tactic.Common

/-!
# Bits in a block of bytes

Bit `i` of a block is bit `i % 8` of byte `i / 8`, counted from the most significant one.

* `bitAt bytes i` — bit `i`; a bit behind the block is not set.
* `bitMask i` — the byte with the one bit `i % 8`, and `writeBit byte i b` — the byte with that bit
  set or cleared, as a bit mask does it.
* `bitAt_set_writeBit` — writing one bit of a block changes that bit and no other.
* `ext_bitAt` — a block is its bits.
* `setBit`, `writeBits` — writing one bit, and a history of writes; `bitAt_writeBits` — a bit is what
  was written to it last, `setBit_comm` — writes of different bits commute.
* `orBytes a b` — two blocks, bit by bit (`bitAt_orBytes`).
* `bitCount bytes` — how many bits are set; `bitCount_cons` — it can be found byte by byte, from
  either end of a byte.
-/

namespace Flood.Lib

/-- Bit `i` of the block. -/
def bitAt (bytes : List UInt8) (i : Nat) : Bool :=
  (bytes.getD (i / 8) 0).toNat.testBit (7 - i % 8)

/-- The byte in which bit `i` of a block is set and no other. -/
def bitMask (i : Nat) : UInt8 := UInt8.ofNat (2 ^ (7 - i % 8))

/-- The byte with bit `i` of the block set to `b`. -/
def writeBit (byte : UInt8) (i : Nat) (b : Bool) : UInt8 :=
  if b then byte ||| bitMask i else byte &&& ~~~ bitMask i

/-- The mask is a power of two. -/
theorem toNat_bitMask (i : Nat) : (bitMask i).toNat = 2 ^ (7 - i % 8) := by
  have hlt : 2 ^ (7 - i % 8) < 2 ^ 8 := Nat.pow_lt_pow_right Nat.one_lt_two (by omega)
  rw [bitMask, UInt8.toNat_ofNat']
  exact Nat.mod_eq_of_lt hlt

/-- The bits of the byte written. -/
theorem testBit_writeBit (byte : UInt8) (i : Nat) (b : Bool) {k : Nat} (hk : k < 8) :
    (writeBit byte i b).toNat.testBit k =
      if k = 7 - i % 8 then b else byte.toNat.testBit k := by
  cases b with
  | true =>
      rw [writeBit, if_pos rfl, UInt8.toNat_or, Nat.testBit_or, toNat_bitMask,
        Nat.testBit_two_pow]
      by_cases h : k = 7 - i % 8
      · simp [h]
      · simp [h, Ne.symm h]
  | false =>
      have hlt : 2 ^ (7 - i % 8) < 2 ^ 8 := Nat.pow_lt_pow_right Nat.one_lt_two (by omega)
      have hnot : (~~~ bitMask i).toNat = 2 ^ 8 - (2 ^ (7 - i % 8) + 1) := by
        rw [UInt8.toNat_not, toNat_bitMask]
        show 256 - 1 - _ = _
        omega
      rw [writeBit, if_neg (by simp), UInt8.toNat_and, Nat.testBit_and, hnot,
        Nat.testBit_two_pow_sub_succ hlt, Nat.testBit_two_pow]
      by_cases h : k = 7 - i % 8
      · simp [h]
      · simp [h, Ne.symm h, hk]

/-- **Writing one bit of a block** changes that bit and no other. -/
theorem bitAt_set_writeBit {bytes : List UInt8} {i : Nat} {byte : UInt8}
    (hbyte : bytes[i / 8]? = some byte) (b : Bool) (j : Nat) :
    bitAt (bytes.set (i / 8) (writeBit byte i b)) j = if j = i then b else bitAt bytes j := by
  have hlt : i / 8 < bytes.length := (List.getElem?_eq_some_iff.mp hbyte).1
  rw [bitAt, bitAt, List.getD_eq_getElem?_getD, List.getD_eq_getElem?_getD]
  by_cases hij : i / 8 = j / 8
  · rw [← hij, List.getElem?_set_self hlt, hbyte, Option.getD_some, Option.getD_some,
      testBit_writeBit byte i b (by omega)]
    have hiff : 7 - j % 8 = 7 - i % 8 ↔ j = i := by omega
    simp only [hiff]
  · rw [List.getElem?_set_ne hij, if_neg]
    rintro rfl
    exact hij rfl

/-- A bit behind the block is not set. -/
theorem bitAt_eq_false_of_le {bytes : List UInt8} {i : Nat} (h : bytes.length ≤ i / 8) :
    bitAt bytes i = false := by
  rw [bitAt, List.getD_eq_default _ _ h]
  exact Nat.zero_testBit _

/-- The bits of a block in front of others. -/
theorem bitAt_append {bytes : List UInt8} {i : Nat} (h : i / 8 < bytes.length) (rest : List UInt8) :
    bitAt (bytes ++ rest) i = bitAt bytes i := by
  rw [bitAt, bitAt, List.getD_append _ _ _ _ h]

/-- Bit `k` of byte `j`, counted from the least significant one. -/
theorem bitAt_eq_testBit {bytes : List UInt8} {j : Nat} {byte : UInt8} (hbyte : bytes[j]? = some byte)
    {k : Nat} (hk : k < 8) : bitAt bytes (8 * j + (7 - k)) = byte.toNat.testBit k := by
  have hdiv : (8 * j + (7 - k)) / 8 = j := by omega
  have hmod : 7 - (8 * j + (7 - k)) % 8 = k := by omega
  rw [bitAt, hdiv, hmod, List.getD_eq_getElem?_getD, hbyte, Option.getD_some]

/-- **A block is its bits.** -/
theorem ext_bitAt {a b : List UInt8} (hlen : a.length = b.length)
    (h : ∀ i < 8 * a.length, bitAt a i = bitAt b i) : a = b := by
  refine List.ext_getElem hlen fun j hj hj' => UInt8.toNat_inj.mp (Nat.eq_of_testBit_eq fun k => ?_)
  by_cases hk : k < 8
  · rw [← bitAt_eq_testBit (List.getElem?_eq_getElem hj) hk,
      ← bitAt_eq_testBit (List.getElem?_eq_getElem hj') hk]
    exact h _ (by omega)
  · have hpow : 2 ^ 8 ≤ 2 ^ k := Nat.pow_le_pow_right Nat.two_pos (not_lt.mp hk)
    rw [Nat.testBit_lt_two_pow (lt_of_lt_of_le a[j].toNat_lt hpow),
      Nat.testBit_lt_two_pow (lt_of_lt_of_le b[j].toNat_lt hpow)]

/-! ## Histories of writes -/

/-- The block with bit `i` set to `b`; a bit behind the block is not written. -/
def setBit (bytes : List UInt8) (i : Nat) (b : Bool) : List UInt8 :=
  bytes.modify (i / 8) fun byte => writeBit byte i b

/-- The bits of a block are written, one after the other. -/
def writeBits (bytes : List UInt8) (writes : List (Nat × Bool)) : List UInt8 :=
  writes.foldl (fun bytes w => setBit bytes w.1 w.2) bytes

/-- What was written to bit `i` last. -/
def lastWrite (writes : List (Nat × Bool)) (i : Nat) : Option Bool :=
  ((writes.filter fun w => w.1 = i).getLast?).map Prod.snd

section writes

variable {bytes : List UInt8} {i j : Nat} {b c : Bool} {writes : List (Nat × Bool)}

@[simp] theorem length_setBit : (setBit bytes i b).length = bytes.length := List.length_modify _ _ _

@[simp] theorem writeBits_nil : writeBits bytes [] = bytes := rfl

@[simp] theorem writeBits_cons :
    writeBits bytes ((i, b) :: writes) = writeBits (setBit bytes i b) writes := rfl

@[simp] theorem writeBits_append (writes' : List (Nat × Bool)) :
    writeBits bytes (writes ++ writes') = writeBits (writeBits bytes writes) writes' :=
  List.foldl_append ..

@[simp] theorem length_writeBits : (writeBits bytes writes).length = bytes.length := by
  induction writes generalizing bytes with
  | nil => rfl
  | cons w writes ih => rw [writeBits_cons, ih, length_setBit]

/-- A bit behind the block is not written. -/
theorem setBit_of_le (h : bytes.length ≤ i / 8) : setBit bytes i b = bytes := List.modify_eq_self h

/-- A bit inside the block is written to its byte. -/
theorem setBit_of_getElem? {byte : UInt8} (h : bytes[i / 8]? = some byte) :
    setBit bytes i b = bytes.set (i / 8) (writeBit byte i b) := by
  rw [setBit, List.modify_eq_set, h]
  rfl

/-- A block in front of others is written alone. -/
theorem setBit_append (h : i / 8 < bytes.length) (rest : List UInt8) :
    setBit (bytes ++ rest) i b = setBit bytes i b ++ rest := by
  have hbyte := List.getElem?_eq_getElem h
  rw [setBit_of_getElem? hbyte,
    setBit_of_getElem? ((List.getElem?_append_left h).trans hbyte), List.set_append_left _ _ h]

/-- **One write** changes one bit, if it lies inside the block. -/
theorem bitAt_setBit (h : j < 8 * bytes.length) :
    bitAt (setBit bytes i b) j = if j = i then b else bitAt bytes j := by
  by_cases hi : i / 8 < bytes.length
  · have hbyte := List.getElem?_eq_getElem hi
    rw [setBit_of_getElem? hbyte, bitAt_set_writeBit hbyte]
  · rw [setBit_of_le (not_lt.mp hi), if_neg]
    rintro rfl
    omega

/-- Writes of different bits commute. -/
theorem setBit_comm (hij : i ≠ j) :
    setBit (setBit bytes i b) j c = setBit (setBit bytes j c) i b := by
  apply ext_bitAt
  · simp
  · intro k hk
    have hk : k < 8 * bytes.length := by simpa using hk
    rw [bitAt_setBit (by simpa using hk), bitAt_setBit hk, bitAt_setBit (by simpa using hk),
      bitAt_setBit hk]
    by_cases hki : k = i
    · rw [if_neg (by rintro rfl; exact hij hki.symm), if_pos hki, if_pos hki]
    · rw [if_neg hki, if_neg hki]

/-- One write more. -/
theorem lastWrite_concat :
    lastWrite (writes ++ [(i, b)]) j = if i = j then some b else lastWrite writes j := by
  rw [lastWrite, List.filter_append]
  split_ifs with hij
  · simp [hij]
  · simp [hij, lastWrite]

/-- **A bit is what was written to it last**, or what it was. -/
theorem bitAt_writeBits (h : i < 8 * bytes.length) :
    bitAt (writeBits bytes writes) i = (lastWrite writes i).getD (bitAt bytes i) := by
  induction writes using List.reverseRecOn with
  | nil => rfl
  | append_singleton writes w ih =>
      obtain ⟨k, b⟩ := w
      rw [writeBits_append, writeBits_cons, writeBits_nil, bitAt_setBit (by simpa using h),
        lastWrite_concat, ih]
      by_cases hki : k = i
      · rw [if_pos hki.symm, if_pos hki, Option.getD_some]
      · rw [if_neg (Ne.symm hki), if_neg hki]

end writes

/-! ## Two blocks -/

/-- The bits set in either of two blocks of the same length. -/
def orBytes (a b : List UInt8) : List UInt8 := List.zipWith (· ||| ·) a b

@[simp] theorem length_orBytes {a b : List UInt8} (h : a.length = b.length) :
    (orBytes a b).length = a.length := by
  rw [orBytes, List.length_zipWith, ← h, min_self]

/-- A bit is set in either block. -/
theorem bitAt_orBytes {a b : List UInt8} (h : a.length = b.length) (i : Nat) :
    bitAt (orBytes a b) i = (bitAt a i || bitAt b i) := by
  by_cases hi : i / 8 < a.length
  · have hi' : i / 8 < b.length := h ▸ hi
    unfold bitAt orBytes
    rw [List.getD_eq_getElem?_getD, List.getD_eq_getElem?_getD, List.getD_eq_getElem?_getD,
      List.getElem?_zipWith, List.getElem?_eq_getElem hi, List.getElem?_eq_getElem hi']
    show (a[i / 8] ||| b[i / 8]).toNat.testBit _ = _
    rw [UInt8.toNat_or, Nat.testBit_or]
    rfl
  · have hle : a.length ≤ i / 8 := not_lt.mp hi
    rw [bitAt_eq_false_of_le (le_of_eq_of_le (length_orBytes h) hle), bitAt_eq_false_of_le hle,
      bitAt_eq_false_of_le (h ▸ hle)]
    rfl

/-! ## Counting -/

/-- How many bits of the block are set. -/
def bitCount (bytes : List UInt8) : Nat := (List.range (8 * bytes.length)).countP (bitAt bytes)

/-- How many bits of a byte are set, from the least significant one on. -/
def byteCount (byte : UInt8) : Nat := (List.range 8).countP fun j => byte.toNat.testBit j

/-- The bits of a byte can be counted from either end. -/
theorem countP_bitAt_byte (byte : UInt8) (bytes : List UInt8) :
    (List.range 8).countP (bitAt (byte :: bytes)) = byteCount byte := by
  have hperm : ((List.range 8).map fun j => 7 - j).Perm (List.range 8) := by decide
  unfold byteCount
  rw [← hperm.countP_eq, List.countP_map]
  refine List.countP_congr fun j hj => ?_
  have hj : j < 8 := List.mem_range.mp hj
  have hdiv : (7 - j) / 8 = 0 := by omega
  have hback : 7 - (7 - j) % 8 = j := by omega
  rw [Function.comp_apply, bitAt, hdiv, hback]
  rfl

/-- The bits of the first byte, and those of the others. -/
theorem bitCount_cons (byte : UInt8) (bytes : List UInt8) :
    bitCount (byte :: bytes) = byteCount byte + bitCount bytes := by
  have hnext : ∀ i, bitAt (byte :: bytes) (8 + i) = bitAt bytes i := by
    intro i
    have hdiv : (8 + i) / 8 = i / 8 + 1 := by omega
    have hmod : (8 + i) % 8 = i % 8 := by omega
    rw [bitAt, bitAt, hdiv, hmod, List.getD_cons_succ]
  unfold bitCount
  rw [List.length_cons, Nat.mul_add, Nat.add_comm, List.range_add, List.countP_append, List.countP_map,
    Nat.mul_one, countP_bitAt_byte]
  congr 1
  exact List.countP_congr fun i _ => by rw [Function.comp_apply, hnext]

end Flood.Lib
