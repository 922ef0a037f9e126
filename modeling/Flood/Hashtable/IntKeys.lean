import Flood.Hashtable.Growth
import Flood.Hashtable.Iterate

/-!
# Tables of integers

The hash and comparison functions that `_GEN_FUNCS` makes for the integer types. A value is given by its
bits.

* `hashFuncOf`, `cmpFuncOf` — the macro, for a type of `w` bits, and the functions it makes.
* `cmpFuncOf_eq_zero_iff` — values compare equal iff they are.
* `slot_of_narrow`, `slot_of_wide` — which slot a number gets. A type of up to 32 bits sends `n` and `-n`
  to one slot, a type of more sends `n` and `-n - 1` there.
* `integers_refine_map` — a table of integers is a map of integers, and its entries are in these slots.
-/

namespace Flood.Hashtable

open Flood.Lib

variable {V : Type} {w : Nat} {signed : Bool}

/-! ## The macro -/

/-- The number that a value stands for. -/
def number (signed : Bool) (v : BitVec w) : Int := if signed then v.toInt else v.toNat

/-- `v >> 32`, which copies the sign of a signed value. -/
def shiftRight32 (signed : Bool) (v : BitVec w) : BitVec w :=
  if signed then v.sshiftRight 32 else v >>> 32

/-- What is converted to `unsigned int`: the value, its upper half folded into the lower one where it
has more than 32 bits. -/
def folded (signed : Bool) (v : BitVec w) : BitVec w :=
  if 32 < w then v ^^^ shiftRight32 signed v else v

/-- Hash a value.
Source: `hashtable.c`, `_GEN_FUNCS` -/
def hashFuncOf (signed : Bool) (v : BitVec w) : UInt32 := UInt32.ofInt (number signed (folded signed v))

/-- `(v1 > v2) - (v1 < v2)`
Source: `hashtable.c`, `_GEN_FUNCS` -/
def cmpFuncOf (signed : Bool) (v1 v2 : BitVec w) : Int :=
  (if number signed v1 > number signed v2 then 1 else 0) -
    (if number signed v1 < number signed v2 then 1 else 0)

/-- Source: `hashtable.c`, `hash_func_int8_t` -/
def hashFuncInt8 : BitVec 8 → UInt32 := hashFuncOf true

/-- Source: `hashtable.c`, `cmp_func_int8_t` -/
def cmpFuncInt8 : BitVec 8 → BitVec 8 → Int := cmpFuncOf true

/-- Source: `hashtable.c`, `hash_func_int16_t` -/
def hashFuncInt16 : BitVec 16 → UInt32 := hashFuncOf true

/-- Source: `hashtable.c`, `cmp_func_int16_t` -/
def cmpFuncInt16 : BitVec 16 → BitVec 16 → Int := cmpFuncOf true

/-- Source: `hashtable.c`, `hash_func_int32_t` -/
def hashFuncInt32 : BitVec 32 → UInt32 := hashFuncOf true

/-- Source: `hashtable.c`, `cmp_func_int32_t` -/
def cmpFuncInt32 : BitVec 32 → BitVec 32 → Int := cmpFuncOf true

/-- Source: `hashtable.c`, `hash_func_int64_t` -/
def hashFuncInt64 : BitVec 64 → UInt32 := hashFuncOf true

/-- Source: `hashtable.c`, `cmp_func_int64_t` -/
def cmpFuncInt64 : BitVec 64 → BitVec 64 → Int := cmpFuncOf true

/-- Source: `hashtable.c`, `hash_func_uint8_t` -/
def hashFuncUint8 : BitVec 8 → UInt32 := hashFuncOf false

/-- Source: `hashtable.c`, `cmp_func_uint8_t` -/
def cmpFuncUint8 : BitVec 8 → BitVec 8 → Int := cmpFuncOf false

/-- Source: `hashtable.c`, `hash_func_uint16_t` -/
def hashFuncUint16 : BitVec 16 → UInt32 := hashFuncOf false

/-- Source: `hashtable.c`, `cmp_func_uint16_t` -/
def cmpFuncUint16 : BitVec 16 → BitVec 16 → Int := cmpFuncOf false

/-- Source: `hashtable.c`, `hash_func_uint32_t` -/
def hashFuncUint32 : BitVec 32 → UInt32 := hashFuncOf false

/-- Source: `hashtable.c`, `cmp_func_uint32_t` -/
def cmpFuncUint32 : BitVec 32 → BitVec 32 → Int := cmpFuncOf false

/-- Source: `hashtable.c`, `hash_func_uint64_t` -/
def hashFuncUint64 : BitVec 64 → UInt32 := hashFuncOf false

/-- Source: `hashtable.c`, `cmp_func_uint64_t` -/
def cmpFuncUint64 : BitVec 64 → BitVec 64 → Int := cmpFuncOf false

/-! ## Comparing -/

/-- A value is known by its number. -/
theorem number_inj {a b : BitVec w} : number signed a = number signed b ↔ a = b := by
  unfold number
  cases signed
  · rw [if_neg Bool.false_ne_true, if_neg Bool.false_ne_true, Nat.cast_inj, BitVec.toNat_inj]
  · rw [if_pos rfl, if_pos rfl, BitVec.toInt_inj]

/-- **Values compare equal iff they are.** -/
theorem cmpFuncOf_eq_zero_iff {a b : BitVec w} : cmpFuncOf signed a b = 0 ↔ a = b := by
  rw [← @number_inj w signed, cmpFuncOf]
  split_ifs <;> omega

/-- So they are lawful keys. -/
theorem integers_lawful : LawfulKeys (hashFuncOf signed (w := w)) (cmpFuncOf signed) where
  refl a := cmpFuncOf_eq_zero_iff.mpr rfl
  symm h := cmpFuncOf_eq_zero_iff.mpr (cmpFuncOf_eq_zero_iff.mp h).symm
  trans h h' :=
    cmpFuncOf_eq_zero_iff.mpr ((cmpFuncOf_eq_zero_iff.mp h).trans (cmpFuncOf_eq_zero_iff.mp h'))
  hash h := by rw [cmpFuncOf_eq_zero_iff.mp h]

/-- So are the functions of each type. -/
theorem members_lawful :
    LawfulKeys hashFuncInt8 cmpFuncInt8 ∧ LawfulKeys hashFuncInt16 cmpFuncInt16 ∧
      LawfulKeys hashFuncInt32 cmpFuncInt32 ∧ LawfulKeys hashFuncInt64 cmpFuncInt64 ∧
      LawfulKeys hashFuncUint8 cmpFuncUint8 ∧ LawfulKeys hashFuncUint16 cmpFuncUint16 ∧
      LawfulKeys hashFuncUint32 cmpFuncUint32 ∧ LawfulKeys hashFuncUint64 cmpFuncUint64 :=
  ⟨integers_lawful, integers_lawful, integers_lawful, integers_lawful, integers_lawful,
    integers_lawful, integers_lawful, integers_lawful⟩

/-! ## Slots -/

/-- The remainder of the absolute value. -/
theorem hashFunction_eq (hash : Int) {size : Int} (hpos : 0 < size) :
    hashFunction hash size = hash.natAbs % size := by
  unfold hashFunction
  rcases le_total 0 hash with h | h
  · have hmod := Int.tmod_eq_emod_of_nonneg h (b := size)
    have hnonneg := Int.emod_nonneg hash hpos.ne'
    rw [hmod, if_neg (not_lt.mpr hnonneg), Int.natAbs_of_nonneg h]
  · obtain ⟨m, rfl⟩ : ∃ m : Nat, hash = -m := ⟨hash.natAbs, by omega⟩
    have hmod : (-(m : Int)).tmod size = -((m : Int) % size) := by
      rw [Int.neg_tmod, Int.tmod_eq_emod_of_nonneg (Int.natCast_nonneg m)]
    have hnonneg := Int.emod_nonneg (m : Int) hpos.ne'
    have habs : (-(m : Int)).natAbs = m := by rw [Int.natAbs_neg, Int.natAbs_natCast]
    simp only [hmod, habs]
    split_ifs <;> omega

/-- A hash as an `int`. -/
theorem intOfUInt_ofInt (n : Int) : intOfUInt (UInt32.ofInt n) = wrap32 n := by
  have hnat : (UInt32.ofInt n).toNat = (n % 4294967296).toNat := by
    rw [UInt32.ofInt, UInt32.toNat_ofNat_of_lt']
    · norm_num
    · norm_num
      omega
  rw [intOfUInt, hnat, wrap32_eq_wrap32_iff]
  omega

/-- **The slot of a number of up to 32 bits** is the remainder of its absolute value. -/
theorem slot_of_narrow (hw : w ≤ 32) (v : BitVec w) {cap : Int} (hpos : 0 < cap) :
    hashFunction (intOfUInt (hashFuncOf signed v)) cap = (wrap32 (number signed v)).natAbs % cap := by
  rw [hashFunction_eq _ hpos, hashFuncOf, intOfUInt_ofInt, folded, if_neg (not_lt.mpr hw)]

/-- A small number of more than 32 bits, folded. -/
theorem number_folded (hw : 32 < w) {v : BitVec w} (hfits : FitsInt (number signed v)) :
    number signed (folded signed v) =
      if number signed v < 0 then -number signed v - 1 else number signed v := by
  have hbig : 2 ^ 33 ≤ 2 ^ w := Nat.pow_le_pow_right (by decide) hw
  unfold FitsInt intMin intMax at hfits
  unfold folded shiftRight32
  rw [if_pos hw]
  unfold number at hfits ⊢
  cases signed
  · simp only [Bool.false_eq_true, if_false] at hfits ⊢
    have hzero : v >>> 32 = 0#w := by
      apply BitVec.eq_of_toNat_eq
      rw [BitVec.toNat_ushiftRight, BitVec.toNat_zero, Nat.shiftRight_eq_div_pow]
      omega
    rw [hzero, BitVec.xor_zero, if_neg (by omega)]
  · simp only [if_true] at hfits ⊢
    have hshift := @BitVec.toInt_sshiftRight w v 32
    rw [Int.shiftRight_eq_div_pow] at hshift
    split_ifs with hneg
    · -- the upper half is all ones
      have hones : v.sshiftRight 32 = BitVec.allOnes w := by
        apply BitVec.eq_of_toInt_eq
        rw [hshift, BitVec.toInt_allOnes, if_pos (by omega)]
        omega
      have hnot := @BitVec.toNat_not w v
      have hv := BitVec.toInt_eq_toNat_cond v
      have hn := BitVec.toInt_eq_toNat_cond (~~~v)
      have hlt := v.isLt
      rw [hones, BitVec.xor_allOnes]
      generalize 2 ^ w = size at *
      split_ifs at hv hn <;> omega
    · have hzero : v.sshiftRight 32 = 0#w := by
        apply BitVec.eq_of_toInt_eq
        rw [hshift, BitVec.toInt_zero]
        omega
      rw [hzero, BitVec.xor_zero]

/-- **The slot of a small number of more than 32 bits** is the remainder of it, or of its complement. -/
theorem slot_of_wide (hw : 32 < w) {v : BitVec w} (hfits : FitsInt (number signed v)) {cap : Int}
    (hpos : 0 < cap) :
    hashFunction (intOfUInt (hashFuncOf signed v)) cap =
      (if number signed v < 0 then -number signed v - 1 else number signed v) % cap := by
  rw [hashFunction_eq _ hpos, hashFuncOf, intOfUInt_ofInt, number_folded hw hfits]
  unfold FitsInt intMin intMax at hfits
  have hnonneg : 0 ≤ if number signed v < 0 then -number signed v - 1 else number signed v := by
    split_ifs <;> omega
  rw [wrap32_of_fits, Int.natAbs_of_nonneg hnonneg]
  unfold FitsInt intMin intMax
  split_ifs <;> omega

/-! ## A map of integers -/

/-- The map of integers that a history makes. -/
def stored (ops : List (MapOp (BitVec w) V)) : BitVec w → Option V :=
  ops.foldl (fun m op => match op with
    | .put key val => Function.update m key (some val)
    | .get _ => m
    | .remove key => Function.update m key none) fun _ => none

/-- It is that of the histories of any keys. -/
theorem valueAfter_eq_stored (ops : List (MapOp (BitVec w) V)) :
    valueAfter (cmpFuncOf signed) ops = stored ops := by
  unfold valueAfter stored
  congr 1
  funext m op k
  cases op with
  | put key val => simp only [MapOp.apply, cmpFuncOf_eq_zero_iff, Function.update_apply]
  | get key => rfl
  | remove key => simp only [MapOp.apply, cmpFuncOf_eq_zero_iff, Function.update_apply]

/-- **A table of integers is a map of integers.** Every run from the fresh table, for a type of any width
and sign, completes while the capacity stays below `2 ^ 30`, and answers each operation as the map of the
integers put so far does. In the end, each entry is in the slot of its number: of the absolute value, for
a type of up to 32 bits, and for a wider one, of a number that is an `int`, of it or its complement. -/
theorem integers_refine_map (signed : Bool) (ops : List (MapOp (BitVec w) V))
    (hcap : ∀ pre post, ops = pre ++ post → ∀ rs ht',
      run (hashtableInit (hashFuncOf signed) (cmpFuncOf signed)) pre = some (rs, ht') →
        ht'.cap < 2 ^ 30) :
    ∃ rs ht, run (hashtableInit (hashFuncOf signed) (cmpFuncOf signed)) ops = some (rs, ht) ∧
      rs.length = ops.length ∧
      (∀ (i : Nat) (op : MapOp (BitVec w) V), ops[i]? = some op →
        rs[i]? = some (op.reply (stored (ops.take i)))) ∧
      ∃ chains, Chained ht chains ∧
        ∀ (i : Nat) (ps : List Nat) (a : Nat) (e : Entry (BitVec w) V), chains[i]? = some ps →
          a ∈ ps → ht.heap[a]? = some e →
            (w ≤ 32 → (i : Int) = (wrap32 (number signed e.key)).natAbs % ht.cap) ∧
            (32 < w → FitsInt (number signed e.key) → (i : Int) =
              (if number signed e.key < 0 then -number signed e.key - 1 else number signed e.key) %
                ht.cap) := by
  have hk : LawfulKeys (hashFuncOf signed (w := w)) (cmpFuncOf signed) := integers_lawful
  obtain ⟨ht, hrun⟩ := run_spec hk (.init _ _) .init hcap
  rw [get_init] at hrun
  obtain ⟨t, hr, hw, -⟩ := repr_of_run hk (.init _ _) .init hrun
  obtain ⟨chains, hchained⟩ := Chained.of_repr hr hw
  have hpos : 0 < ht.cap := by
    rw [hr.cap_eq]
    exact_mod_cast hw.cap_pos
  refine ⟨_, ht, hrun, length_replies _ ops, fun i op hop => ?_, chains, hchained,
    fun i ps a e hps ha he => ?_⟩
  · rw [getElem?_replies, hop, ← valueAfter_eq_stored]
    rfl
  · have hslot := hchained.placed i ps a e hps ha he
    rw [hr.hashFunc_eq] at hslot
    exact ⟨fun hnarrow => by rw [← hslot, slot_of_narrow hnarrow _ hpos],
      fun hwide hfits => by rw [← hslot, slot_of_wide hwide hfits hpos]⟩

/-- A number, its opposite, and the number again. -/
def opposites : List (MapOp (BitVec 8) Nat) := [.put 5 10, .put (-5) 20, .put 5 30, .get 5]

/-- The theorem at a run of `int8_t` keys that share a slot. -/
theorem integers_refine_map_example :
    ∃ rs ht, run (hashtableInit hashFuncInt8 cmpFuncInt8) opposites = some (rs, ht) ∧
      rs.length = opposites.length ∧
      (∀ (i : Nat) (op : MapOp (BitVec 8) Nat), opposites[i]? = some op →
        rs[i]? = some (op.reply (stored (opposites.take i)))) ∧
      ∃ chains, Chained ht chains ∧
        ∀ (i : Nat) (ps : List Nat) (a : Nat) (e : Entry (BitVec 8) Nat), chains[i]? = some ps →
          a ∈ ps → ht.heap[a]? = some e →
            (8 ≤ 32 → (i : Int) = (wrap32 (number true e.key)).natAbs % ht.cap) ∧
            (32 < 8 → FitsInt (number true e.key) → (i : Int) =
              (if number true e.key < 0 then -number true e.key - 1 else number true e.key) %
                ht.cap) := by
  refine integers_refine_map true opposites fun pre post hsplit rs ht' hrun => ?_
  have hcap : ∀ n ≤ 4, (run (hashtableInit (hashFuncOf true) (cmpFuncOf true))
      (opposites.take n)).map (fun s => s.2.cap) = some 16 := by
    decide +kernel
  have hlen : pre.length ≤ 4 := by
    have hsum : 4 = pre.length + post.length := by
      rw [← List.length_append, ← hsplit]
      rfl
    omega
  have hpre := hcap pre.length hlen
  rw [hsplit, List.take_left, hrun] at hpre
  have hcap' : ht'.cap = 16 := Option.some.inj hpre
  rw [hcap']
  norm_num

end Flood.Hashtable
