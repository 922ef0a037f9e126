import Mathlib.Data.Nat.Digits.Lemmas
import Mathlib.Tactic.Ring

/-!
# C integers: 32-bit wrap-around, decimal numerals, byte order

What the rest of the development needs of machine arithmetic, stated for no program in
particular.

* `wrap32 n` — the value an `int` holds after an operation whose exact result is `n`
  (two's complement); `FitsInt n` says the exact result is representable, and then
  `wrap32` changes nothing (`wrap32_of_fits`).
* `decimal ds` — the number a run of ASCII digits denotes; `printNat n` — the text `%d` prints
  for it; `decimal_printNat` and `printNat_decimal` make the two inverse on canonical numerals.
* `leBytes x` and `bswap32 x` — the four bytes of a word in little-endian memory, and the swap
  `htonl` and `ntohl` perform there; `leBytes64 x` — the eight bytes of a 64-bit word.
* `beBytes n x` — the lowest `n` bytes of a number, most significant first, which `bigEndian` undoes;
  what a swapped word leaves in memory.
-/

namespace Flood.Lib

/-! ## `int` -/

/-- The largest `int`. -/
def intMax : Int := 2147483647

/-- The smallest `int`. -/
def intMin : Int := -2147483648

/-- The `int` a two's complement machine keeps of an exact result. -/
def wrap32 (n : Int) : Int :=
  if n % 4294967296 < 2147483648 then n % 4294967296 else n % 4294967296 - 4294967296

/-- The exact result is an `int`. -/
def FitsInt (n : Int) : Prop := intMin ≤ n ∧ n ≤ intMax

instance (n : Int) : Decidable (FitsInt n) := inferInstanceAs (Decidable (_ ∧ _))

/-- A representable result is kept as it is. -/
theorem wrap32_of_fits {n : Int} (h : FitsInt n) : wrap32 n = n := by
  unfold FitsInt intMin intMax at h
  unfold wrap32
  split_ifs <;> omega

/-- A count up to the largest `int` is an `int`. -/
theorem fitsInt_natCast {n : Nat} (h : (n : Int) ≤ intMax) : FitsInt n :=
  ⟨by unfold intMin; omega, h⟩

/-- A count up to the largest `int` is kept as it is. -/
theorem wrap32_natCast {n : Nat} (h : (n : Int) ≤ intMax) : wrap32 n = n :=
  wrap32_of_fits (fitsInt_natCast h)

/-- Whatever the result, an `int` is kept. -/
theorem fitsInt_wrap32 (n : Int) : FitsInt (wrap32 n) := by
  unfold FitsInt intMin intMax wrap32
  split_ifs <;> omega

/-- Wrapping is the identity exactly on the representable results. -/
theorem wrap32_eq_self_iff {n : Int} : wrap32 n = n ↔ FitsInt n :=
  ⟨fun h => h ▸ fitsInt_wrap32 n, wrap32_of_fits⟩

/-- Wrapping an intermediate result changes nothing of a later wrapped sum. -/
@[simp] theorem wrap32_add_wrap32 (a b : Int) : wrap32 (a + wrap32 b) = wrap32 (a + b) := by
  unfold wrap32
  split_ifs <;> omega

/-- Wrapping an intermediate result changes nothing of a later wrapped sum. -/
@[simp] theorem wrap32_wrap32_add (a b : Int) : wrap32 (wrap32 a + b) = wrap32 (a + b) := by
  unfold wrap32
  split_ifs <;> omega

/-- Wrapping twice is wrapping once. -/
@[simp] theorem wrap32_wrap32 (a : Int) : wrap32 (wrap32 a) = wrap32 a :=
  wrap32_of_fits (fitsInt_wrap32 a)

/-- Two exact results leave the same `int` iff they agree modulo `2 ^ 32`. -/
theorem wrap32_eq_wrap32_iff {a b : Int} : wrap32 a = wrap32 b ↔ (a - b) % 4294967296 = 0 := by
  unfold wrap32
  split_ifs <;> omega

/-- A result wraps to zero exactly if it is a multiple of `2 ^ 32`. -/
theorem wrap32_eq_zero_iff {n : Int} : wrap32 n = 0 ↔ n % 4294967296 = 0 := by
  unfold wrap32
  split_ifs <;> omega

/-- An `unsigned int` converted to `int`. -/
def intOfUInt (u : UInt32) : Int := wrap32 u.toNat

/-- An `unsigned int` survives its way through an `int`. -/
theorem ofInt_intOfUInt (u : UInt32) : UInt32.ofInt (intOfUInt u) = u := by
  have hu : u.toNat < 4294967296 := u.toNat_lt
  have hmod : (intOfUInt u % 2 ^ 32).toNat = u.toNat := by
    rw [intOfUInt]
    unfold wrap32
    split_ifs <;> omega
  rw [UInt32.ofInt, hmod, UInt32.ofNat_toNat]

/-- A count up to the largest `int`, converted to `unsigned int`. -/
theorem ofInt_natCast {n : Nat} (h : (n : Int) ≤ intMax) :
    UInt32.ofInt (n : Int) = UInt32.ofNat n ∧ (UInt32.ofNat n).toNat = n := by
  have hlt : n < 2 ^ 32 := by
    unfold intMax at h
    omega
  have hmod : ((n : Int) % 2 ^ 32).toNat = n := by omega
  exact ⟨by rw [UInt32.ofInt, hmod], UInt32.toNat_ofNat_of_lt' hlt⟩

/-! ## Decimal numerals -/

/-- The bytes `isdigit` accepts. -/
def isDigit (c : UInt8) : Bool := 48 ≤ c && c ≤ 57

/-- `c - '0'` for a digit. -/
def digitVal (c : UInt8) : Nat := c.toNat - 48

/-- The digit character of a value below ten. -/
def digitChar (d : Nat) : UInt8 := UInt8.ofNat (d + 48)

/-- The number a run of digits denotes, most significant digit first. -/
def decimal (ds : List UInt8) : Nat := ds.foldl (fun n c => n * 10 + digitVal c) 0

/-- The digits of `n`, most significant first and without padding. -/
def printNat (n : Nat) : List UInt8 :=
  if n = 0 then [48] else (Nat.digits 10 n).reverse.map digitChar

/-- Values of digits are below ten. -/
theorem digitVal_lt {c : UInt8} (h : isDigit c = true) : digitVal c < 10 := by
  have hc : c.toNat ≤ 57 := by
    simp only [isDigit, Bool.and_eq_true, decide_eq_true_eq] at h
    exact UInt8.le_iff_toNat_le.mp h.2
  unfold digitVal
  omega

/-- The digit character of a value below ten is a digit of that value. -/
theorem digitVal_digitChar {d : Nat} (h : d < 10) : digitVal (digitChar d) = d := by
  unfold digitVal digitChar
  rw [UInt8.toNat_ofNat']
  omega

/-- The digit character of a value below ten is a digit. -/
theorem isDigit_digitChar {d : Nat} (h : d < 10) : isDigit (digitChar d) = true := by
  have hd : (digitChar d).toNat = d + 48 := by
    unfold digitChar
    rw [UInt8.toNat_ofNat']
    omega
  simp only [isDigit, Bool.and_eq_true, decide_eq_true_eq, UInt8.le_iff_toNat_le, hd]
  exact ⟨by show 48 ≤ _; omega, by show _ ≤ 57; omega⟩

/-- A digit is the digit character of its value. -/
theorem digitChar_digitVal {c : UInt8} (h : isDigit c = true) : digitChar (digitVal c) = c := by
  simp only [isDigit, Bool.and_eq_true, decide_eq_true_eq, UInt8.le_iff_toNat_le] at h
  have h48 : 48 ≤ c.toNat := h.1
  have hlt := c.toNat_lt
  apply UInt8.toNat_inj.mp
  unfold digitChar digitVal
  rw [UInt8.toNat_ofNat']
  omega

/-- Reading one digit more. -/
theorem decimal_append_singleton (ds : List UInt8) (c : UInt8) :
    decimal (ds ++ [c]) = decimal ds * 10 + digitVal c := by
  simp [decimal]

@[simp] theorem decimal_nil : decimal [] = 0 := rfl

/-- Reading on makes a number no smaller. -/
theorem decimal_le_append (ds es : List UInt8) : decimal ds ≤ decimal (ds ++ es) := by
  induction es generalizing ds with
  | nil => rw [List.append_nil]
  | cons c es ih =>
      calc decimal ds ≤ decimal (ds ++ [c]) := by
            rw [decimal_append_singleton]
            omega
        _ ≤ decimal (ds ++ [c] ++ es) := ih (ds ++ [c])
        _ = decimal (ds ++ c :: es) := by rw [List.append_assoc, List.singleton_append]

/-- A numeral is the value of its digits in Mathlib's order, least significant first. -/
theorem decimal_eq_ofDigits (ds : List UInt8) :
    decimal ds = Nat.ofDigits 10 (ds.reverse.map digitVal) := by
  induction ds using List.reverseRecOn with
  | nil => rfl
  | append_singleton ds c ih =>
      rw [decimal_append_singleton, ih]
      simp [Nat.ofDigits_cons]
      ring

/-- Every printed character is a digit. -/
theorem isDigit_of_mem_printNat {n : Nat} {c : UInt8} (h : c ∈ printNat n) :
    isDigit c = true := by
  unfold printNat at h
  split_ifs at h with hn
  · rw [List.mem_singleton.mp h]
    rfl
  · obtain ⟨d, hd, rfl⟩ := List.mem_map.mp h
    exact isDigit_digitChar (Nat.digits_lt_base (by omega) (List.mem_reverse.mp hd))

/-- Something is always printed. -/
theorem printNat_ne_nil (n : Nat) : printNat n ≠ [] := by
  unfold printNat
  split_ifs with hn
  · simp
  · simpa [Nat.digits_eq_nil_iff_eq_zero] using hn

/-- Reading back a printed number. -/
theorem decimal_printNat (n : Nat) : decimal (printNat n) = n := by
  unfold printNat
  split_ifs with hn
  · subst hn
    rfl
  · have hval : ((Nat.digits 10 n).reverse.map digitChar).reverse.map digitVal =
        Nat.digits 10 n := by
      rw [← List.map_reverse, List.reverse_reverse, List.map_map]
      refine (List.map_congr_left fun d hd => ?_).trans (List.map_id _)
      exact digitVal_digitChar (Nat.digits_lt_base (by omega) hd)
    rw [decimal_eq_ofDigits, hval, Nat.ofDigits_digits]

/-- A numeral without padding: `"0"`, or digits that do not start with `'0'`. -/
def Canonical (ds : List UInt8) : Prop :=
  ds ≠ [] ∧ (∀ c ∈ ds, isDigit c = true) ∧ (ds.head? = some 48 → ds = [48])

instance (ds : List UInt8) : Decidable (Canonical ds) :=
  have : Decidable (∀ c ∈ ds, isDigit c = true) := List.decidableBAll (fun c => isDigit c = true) ds
  inferInstanceAs (Decidable (ds ≠ [] ∧ _ ∧ _))

/-- What is printed is canonical. -/
theorem canonical_printNat (n : Nat) : Canonical (printNat n) := by
  refine ⟨printNat_ne_nil n, fun c => isDigit_of_mem_printNat, fun h => ?_⟩
  unfold printNat at h ⊢
  split_ifs at h ⊢ with hn
  · rfl
  · exfalso
    have hne : Nat.digits 10 n ≠ [] := by simpa [Nat.digits_eq_nil_iff_eq_zero] using hn
    rw [List.head?_map, List.head?_reverse, List.getLast?_eq_some_getLast hne] at h
    have hlast := Nat.getLast_digit_ne_zero 10 hn
    have hlt := Nat.digits_lt_base (by omega : 1 < 10) (List.getLast_mem hne)
    have h0 : digitVal (digitChar ((Nat.digits 10 n).getLast hne)) = 0 := by
      rw [Option.some.inj h]
      rfl
    rw [digitVal_digitChar hlt] at h0
    exact hlast h0

/-- A canonical numeral is the printed form of its value. -/
theorem printNat_decimal {ds : List UInt8} (h : Canonical ds) : printNat (decimal ds) = ds := by
  obtain ⟨hne, hdig, hzero⟩ := h
  by_cases hz : ds.head? = some 48
  · rw [hzero hz]
    rfl
  have hmap : (ds.map digitVal).map digitChar = ds := by
    rw [List.map_map]
    exact (List.map_congr_left fun c hc => digitChar_digitVal (hdig c hc)).trans (List.map_id _)
  have hhead : digitVal (ds.head hne) ≠ 0 := by
    intro h0
    apply hz
    rw [List.head?_eq_some_head hne, ← digitChar_digitVal (hdig _ (List.head_mem hne)), h0]
    rfl
  have hdigits : Nat.digits 10 (decimal ds) = ds.reverse.map digitVal := by
    rw [decimal_eq_ofDigits]
    refine Nat.digits_ofDigits 10 (by omega) _ (fun d hd => ?_) (fun hne' => ?_)
    · obtain ⟨c, hc, rfl⟩ := List.mem_map.mp hd
      exact digitVal_lt (hdig c (List.mem_reverse.mp hc))
    · rw [List.getLast_map, List.getLast_reverse]
      exact hhead
  have hpos : decimal ds ≠ 0 := by
    intro h0
    rw [h0, Nat.digits_zero] at hdigits
    simp [hne] at hdigits
  rw [printNat, if_neg hpos, hdigits, ← List.map_reverse, List.reverse_reverse, hmap]

/-- A number below `10 ^ k` prints in at most `k` characters, for positive `k`. -/
theorem length_printNat_le {n k : Nat} (hk : 0 < k) (h : n < 10 ^ k) :
    (printNat n).length ≤ k := by
  unfold printNat
  split_ifs with hn
  · exact hk
  · rw [List.length_map, List.length_reverse]
    exact (Nat.digits_length_le_iff (by omega) n).mpr h

/-- One more character for ten times the number. -/
theorem length_printNat_of_ten_le {n : Nat} (h : 10 ≤ n) :
    (printNat n).length = (printNat (n / 10)).length + 1 := by
  have hn : n ≠ 0 := by omega
  have hq : n / 10 ≠ 0 := by omega
  rw [printNat, printNat, if_neg hn, if_neg hq, Nat.digits_def' (by omega) (by omega)]
  simp

/-! ## Byte order -/

/-- The `i`-th byte of a word, least significant first. -/
def byteOf (x : UInt32) (i : Nat) : UInt8 := UInt8.ofNat (x.toNat / 256 ^ i)

/-- The word with the given bytes, least significant first. -/
def ofBytes (b0 b1 b2 b3 : UInt8) : UInt32 :=
  UInt32.ofNat (b0.toNat + b1.toNat * 256 + b2.toNat * 65536 + b3.toNat * 16777216)

/-- The four bytes of a word in little-endian memory. -/
def leBytes (x : UInt32) : List UInt8 := [byteOf x 0, byteOf x 1, byteOf x 2, byteOf x 3]

/-- The word four bytes of little-endian memory hold. -/
def leWord : List UInt8 → UInt32
  | [b0, b1, b2, b3] => ofBytes b0 b1 b2 b3
  | _ => 0

/-- The byte swap `htonl` and `ntohl` perform on a little-endian host. -/
def bswap32 (x : UInt32) : UInt32 := ofBytes (byteOf x 3) (byteOf x 2) (byteOf x 1) (byteOf x 0)

/-- A byte of a word, as a number. -/
theorem toNat_byteOf (x : UInt32) (i : Nat) : (byteOf x i).toNat = x.toNat / 256 ^ i % 256 := by
  rw [byteOf, UInt8.toNat_ofNat']

/-- A word made of bytes, as a number. -/
theorem toNat_ofBytes (b0 b1 b2 b3 : UInt8) :
    (ofBytes b0 b1 b2 b3).toNat =
      b0.toNat + b1.toNat * 256 + b2.toNat * 65536 + b3.toNat * 16777216 := by
  have h0 := b0.toNat_lt
  have h1 := b1.toNat_lt
  have h2 := b2.toNat_lt
  have h3 := b3.toNat_lt
  rw [ofBytes, UInt32.toNat_ofNat']
  omega

/-- The bytes of a word made of bytes. -/
theorem leBytes_ofBytes (b0 b1 b2 b3 : UInt8) :
    leBytes (ofBytes b0 b1 b2 b3) = [b0, b1, b2, b3] := by
  have h0 := b0.toNat_lt
  have h1 := b1.toNat_lt
  have h2 := b2.toNat_lt
  have h3 := b3.toNat_lt
  simp only [leBytes, List.cons.injEq, and_true, ← UInt8.toNat_inj, toNat_byteOf, toNat_ofBytes]
  omega

/-- A word is made of its bytes. -/
theorem ofBytes_byteOf (x : UInt32) :
    ofBytes (byteOf x 0) (byteOf x 1) (byteOf x 2) (byteOf x 3) = x := by
  have hx := x.toNat_lt
  apply UInt32.toNat_inj.mp
  simp only [toNat_ofBytes, toNat_byteOf]
  omega

/-- Storing a word and loading it back. -/
@[simp] theorem leWord_leBytes (x : UInt32) : leWord (leBytes x) = x := ofBytes_byteOf x

/-- Four bytes are the bytes of the word they make. -/
theorem leBytes_leWord {bs : List UInt8} (h : bs.length = 4) : leBytes (leWord bs) = bs := by
  match bs, h with
  | [b0, b1, b2, b3], _ => exact leBytes_ofBytes b0 b1 b2 b3

/-- The byte swap of the macros `htonll` and `ntohll` on a little-endian host. -/
def bswap64 (x : UInt64) : UInt64 :=
  ((bswap32 x.toUInt32).toUInt64 <<< 32) ||| (bswap32 (x >>> 32).toUInt32).toUInt64

/-- The eight bytes of a 64-bit word in little-endian memory. -/
def leBytes64 (x : UInt64) : List UInt8 := leBytes x.toUInt32 ++ leBytes (x >>> 32).toUInt32

/-- The 64-bit word eight bytes of little-endian memory hold. -/
def leWord64 (bytes : List UInt8) : UInt64 :=
  UInt64.ofNat ((leWord (bytes.take 4)).toNat + (leWord (bytes.drop 4)).toNat * 4294967296)

@[simp] theorem length_leBytes64 (x : UInt64) : (leBytes64 x).length = 8 := rfl

/-- The first four bytes are the low half. -/
theorem leWord_take_leBytes64 (x : UInt64) : leWord ((leBytes64 x).take 4) = x.toUInt32 :=
  leWord_leBytes x.toUInt32

/-- The high half, as a number. -/
theorem toNat_high (x : UInt64) : (x >>> 32).toUInt32.toNat = x.toNat / 4294967296 := by
  have hx : x.toNat < 18446744073709551616 := x.toNat_lt
  have hshift : (x >>> 32).toNat = x.toNat / 4294967296 := by
    rw [UInt64.toNat_shiftRight]
    exact Nat.shiftRight_eq_div_pow x.toNat 32
  rw [UInt64.toNat_toUInt32, hshift]
  omega

/-- Storing a 64-bit word and loading it back. -/
@[simp] theorem leWord64_leBytes64 (x : UInt64) : leWord64 (leBytes64 x) = x := by
  have hx : x.toNat < 18446744073709551616 := x.toNat_lt
  have hhigh : leWord ((leBytes64 x).drop 4) = (x >>> 32).toUInt32 :=
    leWord_leBytes (x >>> 32).toUInt32
  apply UInt64.toNat_inj.mp
  rw [leWord64, leWord_take_leBytes64, hhigh, UInt64.toNat_ofNat', UInt64.toNat_toUInt32, toNat_high]
  omega

/-- Two words with the same halves. -/
theorem eq_of_halves {x y : UInt64} (hlow : x.toUInt32 = y.toUInt32)
    (hhigh : (x >>> 32).toUInt32 = (y >>> 32).toUInt32) : x = y := by
  rw [← leWord64_leBytes64 x, leBytes64, hlow, hhigh, ← leBytes64, leWord64_leBytes64]

/-- The 64-bit word eight bytes hold, as a number. -/
theorem toNat_leWord64 (bs : List UInt8) : (leWord64 bs).toNat =
    (leWord (bs.take 4)).toNat + (leWord (bs.drop 4)).toNat * 4294967296 := by
  have hlow := (leWord (bs.take 4)).toNat_lt
  have hhigh := (leWord (bs.drop 4)).toNat_lt
  rw [leWord64, UInt64.toNat_ofNat']
  omega

/-- Eight bytes are the bytes of the word they make. -/
theorem leBytes64_leWord64 {bs : List UInt8} (h : bs.length = 8) : leBytes64 (leWord64 bs) = bs := by
  have hnat := toNat_leWord64 bs
  have hlt := (leWord (bs.take 4)).toNat_lt
  have hlow : (leWord64 bs).toUInt32 = leWord (bs.take 4) := by
    apply UInt32.toNat_inj.mp
    rw [UInt64.toNat_toUInt32, hnat]
    omega
  have hhigh : (leWord64 bs >>> 32).toUInt32 = leWord (bs.drop 4) := by
    apply UInt32.toNat_inj.mp
    rw [toNat_high, hnat]
    omega
  rw [leBytes64, hlow, hhigh, leBytes_leWord (by rw [List.length_take, h]; rfl),
    leBytes_leWord (by rw [List.length_drop, h]), List.take_append_drop]

/-- Swapping the bytes twice gives the word back, so `ntohl` undoes `htonl`. -/
@[simp] theorem bswap32_bswap32 (x : UInt32) : bswap32 (bswap32 x) = x := by
  have h := leBytes_ofBytes (byteOf x 3) (byteOf x 2) (byteOf x 1) (byteOf x 0)
  simp only [leBytes, List.cons.injEq, and_true] at h
  obtain ⟨h0, h1, h2, h3⟩ := h
  rw [bswap32, bswap32, h0, h1, h2, h3, ofBytes_byteOf]

/-! ### Numbers in network order -/

/-- The number that bytes hold, most significant first. -/
def bigEndian (bs : List UInt8) : Nat := bs.foldl (fun n b => n * 256 + b.toNat) 0

/-- The word that `ntohl` makes of four bytes of memory. -/
theorem bswap32_leWord {bs : List UInt8} (h : bs.length = 4) :
    bswap32 (leWord bs) = UInt32.ofNat (bigEndian bs) := by
  match bs, h with
  | [b0, b1, b2, b3], _ =>
    have hbytes := leBytes_ofBytes b0 b1 b2 b3
    simp only [leBytes, List.cons.injEq, and_true] at hbytes
    obtain ⟨h0, h1, h2, h3⟩ := hbytes
    rw [leWord, bswap32, h0, h1, h2, h3, ofBytes, bigEndian]
    simp only [List.foldl_cons, List.foldl_nil]
    congr 1
    omega

/-- The lowest `n` bytes of a number, most significant first. -/
def beBytes : Nat → Nat → List UInt8
  | 0, _ => []
  | n + 1, x => UInt8.ofNat (x / 256 ^ n) :: beBytes n x

@[simp] theorem length_beBytes (n x : Nat) : (beBytes n x).length = n := by
  induction n with
  | zero => rfl
  | succ n ih => rw [beBytes, List.length_cons, ih]

/-- Some bytes behind a number. -/
theorem foldl_bigEndian (bs : List UInt8) (m : Nat) :
    bs.foldl (fun n b => n * 256 + b.toNat) m = m * 256 ^ bs.length + bigEndian bs := by
  induction bs generalizing m with
  | nil => simp [bigEndian]
  | cons b bs ih =>
      have hcons : bigEndian (b :: bs) = b.toNat * 256 ^ bs.length + bigEndian bs := by
        rw [bigEndian, List.foldl_cons, ih, Nat.zero_mul, Nat.zero_add]
      rw [List.foldl_cons, ih, hcons, List.length_cons, pow_succ]
      ring

/-- The number that some bytes hold, by its first byte. -/
theorem bigEndian_cons (b : UInt8) (bs : List UInt8) :
    bigEndian (b :: bs) = b.toNat * 256 ^ bs.length + bigEndian bs := by
  rw [bigEndian, List.foldl_cons, foldl_bigEndian, Nat.zero_mul, Nat.zero_add]

/-- The bytes of a number hold it, as far as they reach. -/
theorem bigEndian_beBytes (n x : Nat) : bigEndian (beBytes n x) = x % 256 ^ n := by
  induction n with
  | zero => rw [pow_zero, Nat.mod_one]; rfl
  | succ n ih =>
      have hbyte : (UInt8.ofNat (x / 256 ^ n)).toNat = x / 256 ^ n % 256 := UInt8.toNat_ofNat'
      rw [beBytes, bigEndian_cons, length_beBytes, ih, hbyte, pow_succ,
        @Nat.mod_mul (256 ^ n) 256 x, Nat.mul_comm, Nat.add_comm]

/-- Two numbers with the same bytes. -/
theorem eq_of_beBytes {n x y : Nat} (hx : x < 256 ^ n) (hy : y < 256 ^ n)
    (h : beBytes n x = beBytes n y) : x = y := by
  have hsame := congrArg bigEndian h
  rwa [bigEndian_beBytes, bigEndian_beBytes, Nat.mod_eq_of_lt hx, Nat.mod_eq_of_lt hy] at hsame

/-- The low bytes of a number do not depend on the others. -/
theorem beBytes_mod (n k x : Nat) (h : n ≤ k) : beBytes n (x % 256 ^ k) = beBytes n x := by
  induction n with
  | zero => rfl
  | succ n ih =>
      have hpow : 256 ^ k = 256 ^ n * 256 * 256 ^ (k - (n + 1)) := by
        rw [← pow_succ, ← pow_add]
        congr 1
        omega
      have hbyte : UInt8.ofNat (x % 256 ^ k / 256 ^ n) = UInt8.ofNat (x / 256 ^ n) := by
        apply UInt8.toNat_inj.mp
        rw [UInt8.toNat_ofNat', UInt8.toNat_ofNat', hpow, Nat.mul_assoc, Nat.mod_mul_right_div_self]
        exact Nat.mod_mul_right_mod _ _ _
      rw [beBytes, beBytes, ih (by omega), hbyte]

/-- The bytes of a number, in two parts. -/
theorem beBytes_append (n k x : Nat) : beBytes n (x / 256 ^ k) ++ beBytes k x = beBytes (n + k) x := by
  induction n with
  | zero => rw [Nat.zero_add]; rfl
  | succ n ih =>
      rw [beBytes, List.cons_append, ih, Nat.succ_add, beBytes, Nat.div_div_eq_div_mul, ← pow_add,
        Nat.add_comm k n]

/-- What `htonl` puts into memory. -/
theorem leBytes_bswap32 (x : UInt32) : leBytes (bswap32 x) = beBytes 4 x.toNat :=
  leBytes_ofBytes (byteOf x 3) (byteOf x 2) (byteOf x 1) (byteOf x 0)

/-- The byte swap `htons` performs on a little-endian host. -/
def bswap16 (x : UInt16) : UInt16 := UInt16.ofNat (x.toNat / 256 + x.toNat % 256 * 256)

/-- The two bytes of a word of 16 bits in little-endian memory. -/
def leBytes16 (x : UInt16) : List UInt8 := [UInt8.ofNat x.toNat, UInt8.ofNat (x.toNat / 256)]

/-- What `htons` puts into memory. -/
theorem leBytes16_bswap16 (x : UInt16) : leBytes16 (bswap16 x) = beBytes 2 x.toNat := by
  have hx : x.toNat < 65536 := x.toNat_lt
  have hswap : (bswap16 x).toNat = x.toNat / 256 + x.toNat % 256 * 256 := by
    rw [bswap16, UInt16.toNat_ofNat']
    omega
  have hhigh : (bswap16 x).toNat / 256 = x.toNat % 256 := by omega
  have hlow : (bswap16 x).toNat % 256 = x.toNat / 256 := by omega
  simp only [leBytes16, beBytes, List.cons.injEq, and_true, ← UInt8.toNat_inj, UInt8.toNat_ofNat',
    pow_one, pow_zero, hhigh]
  omega

/-! ### Swapping 64 bits -/

/-- A swapped 64-bit word, as a number. -/
theorem toNat_bswap64 (x : UInt64) : (bswap64 x).toNat =
    (bswap32 x.toUInt32).toNat * 4294967296 + (bswap32 (x >>> 32).toUInt32).toNat := by
  have hlow := (bswap32 x.toUInt32).toNat_lt
  have hhigh := (bswap32 (x >>> 32).toUInt32).toNat_lt
  have hshift : ((bswap32 x.toUInt32).toUInt64 <<< 32).toNat =
      4294967296 * (bswap32 x.toUInt32).toNat := by
    have hplaces : (32 : UInt64).toNat % 64 = 32 := by decide
    rw [UInt64.toNat_shiftLeft, UInt32.toNat_toUInt64, hplaces, Nat.shiftLeft_eq]
    omega
  rw [bswap64, UInt64.toNat_or, hshift, UInt32.toNat_toUInt64, Nat.mul_comm _ 4294967296]
  exact (Nat.two_pow_add_eq_or_of_lt hhigh (bswap32 x.toUInt32).toNat).symm

/-- The low half of a swapped word is the high half, swapped. -/
theorem low_bswap64 (x : UInt64) : (bswap64 x).toUInt32 = bswap32 (x >>> 32).toUInt32 := by
  have hhigh := (bswap32 (x >>> 32).toUInt32).toNat_lt
  apply UInt32.toNat_inj.mp
  rw [UInt64.toNat_toUInt32, toNat_bswap64]
  omega

/-- The high half of a swapped word is the low half, swapped. -/
theorem high_bswap64 (x : UInt64) : (bswap64 x >>> 32).toUInt32 = bswap32 x.toUInt32 := by
  have hhigh := (bswap32 (x >>> 32).toUInt32).toNat_lt
  apply UInt32.toNat_inj.mp
  rw [toNat_high, toNat_bswap64]
  omega

/-- What `htonll` puts into memory. -/
theorem leBytes64_bswap64 (x : UInt64) : leBytes64 (bswap64 x) = beBytes 8 x.toNat := by
  have hlow : beBytes 4 x.toUInt32.toNat = beBytes 4 x.toNat := by
    rw [UInt64.toNat_toUInt32]
    exact beBytes_mod 4 4 x.toNat le_rfl
  rw [leBytes64, low_bswap64, high_bswap64, leBytes_bswap32, leBytes_bswap32, toNat_high, hlow]
  exact beBytes_append 4 4 x.toNat

/-- Swapping the bytes twice gives the word back, so `ntohll` undoes `htonll`. -/
@[simp] theorem bswap64_bswap64 (x : UInt64) : bswap64 (bswap64 x) = x := by
  apply eq_of_halves
  · rw [low_bswap64, high_bswap64, bswap32_bswap32]
  · rw [high_bswap64, low_bswap64, bswap32_bswap32]

end Flood.Lib
