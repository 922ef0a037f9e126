import Flood.Bencode.Value

/-!
# The hash functions

* `fnv1a` — 32-bit FNV-1a, on numbers.
* `fnv1aHash` — the hash of some bytes, as the source computes it from signed characters.
* `HashesRight bytes` — the source hashes the bytes, and what they begin with, by FNV-1a, and a string
  like its bytes.
* `hashes_right_iff` — so it is iff no byte is above 127. Such a byte is extended with ones, and the
  first of them spoils the hash; a second may mend it again.
-/

namespace Flood.Hashtable

open Flood.Lib Flood.Bencode

/-- 32-bit FNV-1a. -/
def fnv1a (bytes : List UInt8) : Nat :=
  bytes.foldl (fun hash b => (hash ^^^ b.toNat) * 16777619 % 2 ^ 32) 2166136261

/-- `hash ^= c; hash *= FNV_32_PRIME;` -/
def hashStep (hash : UInt32) (c : UInt8) : UInt32 := (hash ^^^ signExtend c) * 16777619

/-- The loop of `fnv_1a_hash` over `n` bytes from byte `i` on; `none` if there is no such byte. -/
def hashLoop (bytes : List UInt8) : Nat → Nat → UInt32 → Option UInt32
  | 0, _, hash => some hash
  | n + 1, i, hash => do
      let c ← bytes[i]?
      hashLoop bytes n (i + 1) (hashStep hash c)

/-- Hash `len` bytes.
Source: `hashtable.c`, `fnv_1a_hash` -/
def fnv1aHash (bytes : List UInt8) (len : Int) : Option UInt32 :=
  hashLoop bytes len.toNat 0 2166136261

/-- The bytes and what they begin with are hashed by FNV-1a, and the string in them like its bytes. -/
structure HashesRight (bytes : List UInt8) : Prop where
  /-- By the definition. -/
  reference : ∀ pre post, bytes = pre ++ post →
    (fnv1aHash pre pre.length).map UInt32.toNat = some (fnv1a pre)
  /-- In both ways. -/
  string : some (fnv1aHashStr (cstr bytes)) = fnv1aHash (cstr bytes) (cstr bytes).length

variable {bytes pre post : List UInt8} {b c : UInt8} {hash hash' : UInt32}

/-! ## Folds -/

/-- The loop is a fold. -/
theorem hashLoop_eq (pre post : List UInt8) (hash : UInt32) :
    hashLoop (pre ++ post) post.length pre.length hash = some (post.foldl hashStep hash) := by
  induction post generalizing pre hash with
  | nil => rfl
  | cons c post ih =>
      have hget : (pre ++ c :: post)[pre.length]? = some c := by
        rw [List.getElem?_append_right le_rfl, Nat.sub_self, List.getElem?_cons_zero]
      have happend : pre ++ c :: post = (pre ++ [c]) ++ post := by
        rw [List.append_assoc, List.singleton_append]
      have hnext : pre.length + 1 = (pre ++ [c]).length := by
        rw [List.length_append, List.length_singleton]
      rw [List.length_cons, hashLoop, hget, Option.bind_eq_bind, Option.bind_some, happend, hnext, ih,
        List.foldl_cons]

/-- Bytes are hashed by a fold. -/
theorem fnv1aHash_eq (bytes : List UInt8) :
    fnv1aHash bytes bytes.length = some (bytes.foldl hashStep 2166136261) := by
  rw [fnv1aHash, Int.toNat_natCast]
  exact hashLoop_eq [] bytes 2166136261

/-- **A string is hashed like its bytes.** -/
theorem fnv1aHashStr_eq (str : List UInt8) : some (fnv1aHashStr str) = fnv1aHash str str.length :=
  (fnv1aHash_eq str).symm

/-- The reference, on words. -/
def fnvStep (hash : UInt32) (c : UInt8) : UInt32 := (hash ^^^ c.toUInt32) * 16777619

/-- The reference is a fold on words. -/
theorem fnv1a_eq (bytes : List UInt8) : fnv1a bytes = (bytes.foldl fnvStep 2166136261).toNat := by
  have hfold : ∀ hash : UInt32,
      bytes.foldl (fun hash b => (hash ^^^ b.toNat) * 16777619 % 2 ^ 32) hash.toNat =
        (bytes.foldl fnvStep hash).toNat := by
    induction bytes with
    | nil => exact fun hash => rfl
    | cons c bytes ih =>
        intro hash
        rw [List.foldl_cons, List.foldl_cons, ← ih, fnvStep, UInt32.toNat_mul, UInt32.toNat_xor,
          UInt8.toNat_toUInt32]
        rfl
  exact hfold 2166136261

/-- The hash is right iff the two folds agree. -/
theorem hash_eq_iff : (fnv1aHash bytes bytes.length).map UInt32.toNat = some (fnv1a bytes) ↔
    bytes.foldl hashStep 2166136261 = bytes.foldl fnvStep 2166136261 := by
  rw [fnv1aHash_eq, fnv1a_eq, Option.map_some, Option.some.injEq, UInt32.toNat_inj]

/-! ## Signed characters -/

/-- An ASCII character is not changed. -/
theorem signExtend_of_lt (h : c < 128) : signExtend c = c.toUInt32 := if_pos h

/-- Another is. -/
theorem signExtend_ne (h : ¬ c < 128) : signExtend c ≠ c.toUInt32 := by
  intro heq
  have hlt := c.toNat_lt
  have hones : (0xFFFFFF00 : UInt32).toNat = 4294967040 := by decide
  rw [signExtend, if_neg h, ← UInt32.toNat_inj, UInt32.toNat_add, UInt8.toNat_toUInt32, hones] at heq
  omega

/-- Steps from different hashes by ASCII characters agree. -/
theorem foldl_hashStep_of_lt (h : ∀ c ∈ bytes, c < 128) (hash : UInt32) :
    bytes.foldl hashStep hash = bytes.foldl fnvStep hash := by
  induction bytes generalizing hash with
  | nil => rw [List.foldl_nil, List.foldl_nil]
  | cons c bytes ih =>
      rw [List.forall_mem_cons] at h
      rw [List.foldl_cons, List.foldl_cons, hashStep, signExtend_of_lt h.1]
      exact ih h.2 _

/-- The prime has an inverse, so that multiplying by it loses nothing. -/
theorem mul_prime_inj : hash * 16777619 = hash' * 16777619 ↔ hash = hash' := by
  refine ⟨fun h => ?_, fun h => h ▸ rfl⟩
  have hone : (16777619 : UInt32) * 899433627 = 1 := by decide +kernel
  have hmul : hash * 16777619 * 899433627 = hash' * 16777619 * 899433627 := by rw [h]
  rwa [UInt32.mul_assoc, UInt32.mul_assoc, hone, UInt32.mul_one, UInt32.mul_one] at hmul

/-- The first byte above 127 spoils the hash. -/
theorem hashStep_ne (h : ¬ c < 128) (hash : UInt32) : hashStep hash c ≠ fnvStep hash c := by
  rw [hashStep, fnvStep, Ne, mul_prime_inj, UInt32.xor_right_inj]
  exact signExtend_ne h

/-- ASCII characters do not mend it. -/
theorem foldl_fnvStep_inj : bytes.foldl fnvStep hash = bytes.foldl fnvStep hash' ↔ hash = hash' := by
  induction bytes generalizing hash hash' with
  | nil => rfl
  | cons c bytes ih =>
      rw [List.foldl_cons, List.foldl_cons, ih, fnvStep, fnvStep, mul_prime_inj, UInt32.xor_left_inj]

/-- **Bytes with exactly one above 127 are hashed wrongly.** -/
theorem foldl_hashStep_ne (hpre : ∀ c ∈ pre, c < 128) (hb : ¬ b < 128) (hpost : ∀ c ∈ post, c < 128)
    (hash : UInt32) :
    (pre ++ b :: post).foldl hashStep hash ≠ (pre ++ b :: post).foldl fnvStep hash := by
  rw [List.foldl_append, List.foldl_append, List.foldl_cons, List.foldl_cons,
    foldl_hashStep_of_lt hpre, foldl_hashStep_of_lt hpost, Ne, foldl_fnvStep_inj]
  exact hashStep_ne hb _

/-- A first byte above 127. -/
theorem exists_first (h : ¬ ∀ c ∈ bytes, c < 128) :
    ∃ pre b post, bytes = pre ++ b :: post ∧ (∀ c ∈ pre, c < 128) ∧ ¬ b < 128 := by
  induction bytes with
  | nil => exact absurd (fun c hc => absurd hc List.not_mem_nil) h
  | cons c bytes ih =>
      by_cases hc : c < 128
      · have hrest : ¬ ∀ c ∈ bytes, c < 128 := fun hall => h (List.forall_mem_cons.mpr ⟨hc, hall⟩)
        obtain ⟨pre, b, post, rfl, hpre, hb⟩ := ih hrest
        exact ⟨c :: pre, b, post, rfl, List.forall_mem_cons.mpr ⟨hc, hpre⟩, hb⟩
      · exact ⟨[], c, bytes, rfl, fun d hd => absurd hd List.not_mem_nil, hc⟩

/-- **When the hash is FNV-1a.** Some bytes and all that they begin with are hashed by FNV-1a, and the
string in them like its bytes, iff no byte is above 127. -/
theorem hashes_right_iff (bytes : List UInt8) : HashesRight bytes ↔ ∀ c ∈ bytes, c < 128 := by
  constructor
  · intro h
    by_contra hall
    obtain ⟨pre, b, post, rfl, hpre, hb⟩ := exists_first hall
    have hright := h.reference (pre ++ [b]) post (by rw [List.append_assoc, List.singleton_append])
    rw [hash_eq_iff] at hright
    exact foldl_hashStep_ne hpre hb (fun c hc => absurd hc List.not_mem_nil) _ hright
  · intro h
    constructor
    · rintro pre post rfl
      rw [hash_eq_iff]
      exact foldl_hashStep_of_lt (fun c hc => h c (List.mem_append_left post hc)) _
    · exact fnv1aHashStr_eq _

/-- The byte `0x80` is hashed wrongly. -/
theorem high_byte_wrong :
    ¬ ∀ bytes : List UInt8, (fnv1aHash bytes bytes.length).map UInt32.toNat = some (fnv1a bytes) := by
  intro h
  have hbyte := h [128]
  rw [hash_eq_iff] at hbyte
  exact absurd hbyte (by decide)

-- of these five bytes two are above 127, and the hash is right
example :
    (fnv1aHash [133, 76, 56, 2, 128] 5).map UInt32.toNat = some (fnv1a [133, 76, 56, 2, 128]) := by
  decide +kernel

end Flood.Hashtable
