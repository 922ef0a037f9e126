import Flood.Bencode.Parser

/-!
# The texts the parser accepts

* `Syn` — a syntax tree: a text cut into the parts the parser reads, with nothing computed from it.
  `Syn.bytes` puts the text together, `Syn.value` computes the value the parser makes of it.
* `Spelled t` — what the parser asks of a tree: runs of digits, and payloads as long as the numeral
  before them says *as an `int`*.
* `Reads string pos bs` — the memory holds `bs` from `pos` on.
* `bParseAny_complete` — where the memory holds the text of a spelled tree, inside the buffer, the
  parser returns its value and stands behind it.
-/

namespace Flood.Bencode

open Flood.Lib Flood.Hashtable

/-! ## Syntax trees -/

/-- The text of a string: a run of digits, a colon, a payload. -/
structure StrText where
  /-- The digits before the colon. -/
  digits : List UInt8
  /-- The bytes behind the colon. -/
  payload : List UInt8
  deriving DecidableEq

/-- The text of a value. -/
inductive Syn where
  /-- A string. -/
  | string (text : StrText)
  /-- An integer: a minus or none, and digits. -/
  | integer (neg : Bool) (digits : List UInt8)
  /-- A list. -/
  | list (items : List Syn)
  /-- A dictionary: keys and values in turn. -/
  | dict (pairs : List (StrText × Syn))

/-- Digits, `:`, payload. -/
def StrText.bytes (s : StrText) : List UInt8 := s.digits ++ 58 :: s.payload

mutual

/-- The text of a tree. -/
def Syn.bytes : Syn → List UInt8
  | .string s => s.bytes
  | .integer neg digits => 105 :: ((if neg then [45] else []) ++ digits ++ [101])
  | .list items => 108 :: (bytesItems items ++ [101])
  | .dict pairs => 100 :: (bytesPairs pairs ++ [101])

/-- The texts of the items of a list, one after the other. -/
def bytesItems : List Syn → List UInt8
  | [] => []
  | t :: items => t.bytes ++ bytesItems items

/-- The texts of the keys and values of a dictionary, one after the other. -/
def bytesPairs : List (StrText × Syn) → List UInt8
  | [] => []
  | (key, t) :: pairs => key.bytes ++ t.bytes ++ bytesPairs pairs

end

/-- The number a run of digits has for the parser. -/
def numeral (digits : List UInt8) : Int := wrap32 (decimal digits)

/-- The length of the string, as the parser computes it. -/
def StrText.len (s : StrText) : Int := numeral s.digits

/-- The pointer to the copy of the payload, where the text of the string starts at `off`. -/
def StrText.ptr (place : Nat → Addr) (off : Nat) (s : StrText) : CharPtr :=
  ⟨place (off + s.digits.length + 1), s.payload⟩

/-- The string of a text that starts at `off`. -/
def StrText.value (place : Nat → Addr) (off : Nat) (s : StrText) : BencodeString :=
  ⟨if allocated s.len then some (s.ptr place off) else none, s.len⟩

/-- The integer of a text. -/
def integerOf (neg : Bool) (digits : List UInt8) : Int :=
  if neg then wrap32 (numeral digits * -1) else numeral digits

/-- The position of the last of the bytes of a text that starts at `off`. -/
def stopOf (off : Nat) (bs : List UInt8) : Int := (off : Int) + bs.length - 1

section Value

variable (place : Nat → Addr)

mutual

/-- The value of a text that starts at `off`. -/
def Syn.value : Nat → Syn → BencodeValue
  | off, .string s => .string (s.value place off) off (stopOf off (Syn.string s).bytes)
  | off, .integer neg digits =>
      .integer (integerOf neg digits) off (stopOf off (Syn.integer neg digits).bytes)
  | off, .list items =>
      .list (valueItems (off + 1) items) off (stopOf off (Syn.list items).bytes)
  | off, .dict pairs =>
      .dict (tableOf (off + 1) pairs Table.init) off (stopOf off (Syn.dict pairs).bytes)

/-- The values of items whose texts start at `off`. -/
def valueItems : Nat → List Syn → List BencodeValue
  | _, [] => []
  | off, t :: items => Syn.value off t :: valueItems (off + t.bytes.length) items

/-- Put keys and values whose texts start at `off` into a dictionary, in order. -/
def tableOf : Nat → List (StrText × Syn) → BencodeDict → BencodeDict
  | _, [], dict => dict
  | off, (key, t) :: pairs, dict =>
      tableOf (off + key.bytes.length + t.bytes.length) pairs
        (dict.put hashFuncStr cmpFuncStr (key.ptr place off) (Syn.value (off + key.bytes.length) t))

end

end Value

/-- What the parser asks of the text of a string: digits, of which there is one, and a payload of
the length they give. The largest `int` is no length: there is no room for the NUL. -/
structure StrText.Spelled (s : StrText) : Prop where
  /-- There is a digit. -/
  ne_nil : s.digits ≠ []
  /-- There are only digits. -/
  digits : ∀ c ∈ s.digits, isDigit c = true
  /-- The payload has the length given; a negative one counts as zero. -/
  length_payload : s.payload.length = s.len.toNat
  /-- A byte more can be allocated. -/
  len_ne : s.len ≠ intMax

/-- What the parser asks of a key: its length is `-1` or more, so that there is a block to hash. -/
structure StrText.KeySpelled (s : StrText) : Prop extends s.Spelled where
  /-- There is a block of one byte more. -/
  neg_one_le_len : -1 ≤ s.len

/-- What the parser asks of the text of a value. -/
inductive Spelled : Syn → Prop
  | string {s : StrText} (h : s.Spelled) : Spelled (.string s)
  | integer {neg : Bool} {digits : List UInt8} (h : ∀ c ∈ digits, isDigit c = true) :
      Spelled (.integer neg digits)
  | list {items : List Syn} (h : ∀ t ∈ items, Spelled t) : Spelled (.list items)
  | dict {pairs : List (StrText × Syn)} (hkeys : ∀ p ∈ pairs, p.1.KeySpelled)
      (h : ∀ p ∈ pairs, Spelled p.2) : Spelled (.dict pairs)

/-! ## Lengths -/

@[simp] theorem length_bytes_str (s : StrText) :
    s.bytes.length = s.digits.length + 1 + s.payload.length := by
  rw [StrText.bytes, List.length_append, List.length_cons]
  omega

@[simp] theorem bytesPairs_append (pairs pairs' : List (StrText × Syn)) :
    bytesPairs (pairs ++ pairs') = bytesPairs pairs ++ bytesPairs pairs' := by
  induction pairs with
  | nil => rfl
  | cons p pairs ih =>
      rw [List.cons_append, bytesPairs, ih, bytesPairs]
      exact (List.append_assoc _ _ _).symm

/-- Every text has a byte. -/
theorem Syn.bytes_ne_nil (t : Syn) : t.bytes ≠ [] := by
  cases t <;> simp [Syn.bytes, StrText.bytes]

/-- There are no more items than bytes. -/
theorem length_le_bytesItems (items : List Syn) : items.length ≤ (bytesItems items).length := by
  induction items with
  | nil => exact Nat.le_refl _
  | cons t items ih =>
      have := List.length_pos_iff.mpr t.bytes_ne_nil
      rw [bytesItems, List.length_append, List.length_cons]
      omega

/-- There are no more pairs than bytes. -/
theorem length_le_bytesPairs (pairs : List (StrText × Syn)) :
    pairs.length ≤ (bytesPairs pairs).length := by
  induction pairs with
  | nil => exact Nat.le_refl _
  | cons p pairs ih =>
      have := List.length_pos_iff.mpr p.2.bytes_ne_nil
      rw [bytesPairs, List.length_append, List.length_append, List.length_cons]
      omega

/-- The text of an item is no longer than that of all items. -/
theorem length_le_of_mem_items {items : List Syn} {t : Syn} (h : t ∈ items) :
    t.bytes.length ≤ (bytesItems items).length := by
  induction items with
  | nil => exact absurd h List.not_mem_nil
  | cons u items ih =>
      rw [bytesItems, List.length_append]
      rcases List.mem_cons.mp h with rfl | h
      · omega
      · have := ih h
        omega

/-- The texts of a key and its value are no longer than those of all pairs. -/
theorem length_le_of_mem_pairs {pairs : List (StrText × Syn)} {p : StrText × Syn} (h : p ∈ pairs) :
    p.1.bytes.length + p.2.bytes.length ≤ (bytesPairs pairs).length := by
  induction pairs with
  | nil => exact absurd h List.not_mem_nil
  | cons q pairs ih =>
      rw [bytesPairs, List.length_append, List.length_append]
      rcases List.mem_cons.mp h with rfl | h
      · omega
      · have := ih h
        omega

/-! ## Memory -/

/-- The memory holds the bytes `bs` from `pos` on. -/
def Reads (string : Nat → Option UInt8) : Nat → List UInt8 → Prop
  | _, [] => True
  | pos, c :: bs => string pos = some c ∧ Reads string (pos + 1) bs

variable {string : Nat → Option UInt8} {len : Int} {place : Nat → Addr}

@[simp] theorem reads_nil (pos : Nat) : Reads string pos [] := trivial

@[simp] theorem reads_cons {pos : Nat} {c : UInt8} {bs : List UInt8} :
    Reads string pos (c :: bs) ↔ string pos = some c ∧ Reads string (pos + 1) bs :=
  Iff.rfl

/-- Bytes in two parts. -/
theorem reads_append {pos : Nat} {bs bs' : List UInt8} :
    Reads string pos (bs ++ bs') ↔ Reads string pos bs ∧ Reads string (pos + bs.length) bs' := by
  induction bs generalizing pos with
  | nil => simp
  | cons c bs ih =>
      rw [List.cons_append, reads_cons, reads_cons, ih, List.length_cons, and_assoc,
        show pos + 1 + bs.length = pos + (bs.length + 1) by omega]

/-- The byte after the bytes read. -/
theorem Reads.next {pos : Nat} {bs bs' : List UInt8} {c : UInt8}
    (h : Reads string pos (bs ++ c :: bs')) : string (pos + bs.length) = some c :=
  (reads_append.mp h).2.1

/-- The first of the bytes read. -/
theorem Reads.take {pos : Nat} {bs : List UInt8} (h : Reads string pos bs) (k : Nat) :
    Reads string pos (bs.take k) := by
  rw [← List.take_append_drop k bs] at h
  exact (reads_append.mp h).1

/-- The bytes read from a later one on. -/
theorem Reads.drop {pos k : Nat} {bs : List UInt8} (h : Reads string pos bs) (hk : k ≤ bs.length) :
    Reads string (pos + k) (bs.drop k) := by
  rw [← List.take_append_drop k bs] at h
  have hdrop := (reads_append.mp h).2
  rwa [List.length_take_of_le hk] at hdrop

/-! ## Numerals -/

/-- Reading one digit more, modulo `2 ^ 32`. -/
theorem addDigit_wrap32 (m : Nat) (c : UInt8) :
    addDigit (wrap32 m) c = wrap32 ((m * 10 + digitVal c : Nat) : Int) := by
  unfold addDigit wrap32
  push_cast
  split_ifs <;> omega

/-- Reading a run of digits on. -/
theorem foldl_addDigit (pre ds : List UInt8) :
    ds.foldl addDigit (numeral pre) = numeral (pre ++ ds) := by
  induction ds generalizing pre with
  | nil => rw [List.append_nil, List.foldl_nil]
  | cons c ds ih =>
      rw [List.foldl_cons, numeral, addDigit_wrap32, ← decimal_append_singleton]
      have := ih (pre ++ [c])
      rwa [List.append_assoc, List.singleton_append] at this

/-- A digit is its own numeral. -/
theorem numeral_singleton {c : UInt8} (h : isDigit c = true) : numeral [c] = digitVal c := by
  have hlt := digitVal_lt h
  have hval : decimal [c] = digitVal c := by simp [decimal]
  rw [numeral, hval, wrap32_natCast (by unfold intMax; omega)]

/-- A numeral is read on from its first digit. -/
theorem foldl_addDigit_digitVal {c : UInt8} (h : isDigit c = true) (ds : List UInt8) :
    ds.foldl addDigit (digitVal c) = numeral (c :: ds) := by
  rw [← numeral_singleton h, foldl_addDigit, List.singleton_append]

/-- What is read is an `int`. -/
theorem fitsInt_numeral (digits : List UInt8) : FitsInt (numeral digits) := by
  rw [numeral]
  exact fitsInt_wrap32 _

/-! ## Completeness -/

/-- The check passes inside the buffer. -/
theorem eofCheck_of_lt {α : Type} {pos : Nat} {k : Result α} (h : (pos : Int) < len) :
    eofCheck len pos k = k :=
  if_neg (not_le.mpr h)

/-- Reading a byte of the memory. -/
theorem readByte_of_eq {pos : Nat} {c : UInt8} (h : string pos = some c) :
    readByte string pos = .ok c pos := by
  rw [readByte, h]

/-- The digit loop reads a run of digits that ends inside the buffer. With no digits, it does not
look where the buffer ends. -/
theorem digitLoop_complete {fuel pos : Nat} {n : Int} {c : UInt8} {ds rest : List UInt8}
    (hr : Reads string pos (ds ++ c :: rest)) (hd : ∀ d ∈ ds, isDigit d = true)
    (hc : isDigit c = false) (hlen : ds ≠ [] → (pos + ds.length : Int) < len)
    (hfuel : ds.length < fuel) :
    digitLoop string len fuel n pos = .ok (ds.foldl addDigit n) (pos + ds.length) := by
  induction ds generalizing fuel pos n with
  | nil =>
      obtain ⟨fuel, rfl⟩ : ∃ k, fuel = k + 1 := ⟨fuel - 1, by omega⟩
      rw [digitLoop, readByte_of_eq hr.1, Result.bind_ok, if_neg (by rw [hc]; exact Bool.false_ne_true)]
      rfl
  | cons d ds ih =>
      obtain ⟨fuel, rfl⟩ : ∃ k, fuel = k + 1 := ⟨fuel - 1, by omega⟩
      replace hlen := hlen (List.cons_ne_nil d ds)
      rw [List.length_cons] at hlen hfuel
      push_cast at hlen
      rw [digitLoop, readByte_of_eq hr.1, Result.bind_ok, if_pos (hd d List.mem_cons_self),
        eofCheck_of_lt (by push_cast; omega),
        ih hr.2 (fun e he => hd e (List.mem_cons_of_mem d he)) (fun _ => by push_cast; omega)
          (by omega),
        List.foldl_cons, List.length_cons, show pos + 1 + ds.length = pos + (ds.length + 1) by omega]

/-- The copy loop copies bytes that are inside the buffer. -/
theorem copyLoop_complete {block : Bool} {pos : Nat} {bs : List UInt8} (hr : Reads string pos bs)
    (hlen : (pos + bs.length : Int) ≤ len) (hblock : bs ≠ [] → block = true) :
    copyLoop string len block bs.length pos = .ok bs (pos + bs.length) := by
  induction bs generalizing pos with
  | nil => rfl
  | cons c bs ih =>
      obtain rfl := hblock (List.cons_ne_nil c bs)
      rw [List.length_cons] at hlen
      push_cast at hlen
      rw [List.length_cons, copyLoop, eofCheck_of_lt (by omega), readByte_of_eq hr.1, Result.bind_ok,
        if_pos rfl, ih hr.2 (by push_cast; omega) (fun _ => rfl), Result.bind_ok,
        show pos + 1 + bs.length = pos + (bs.length + 1) by omega]

/-- A byte more can be allocated for every length from `-1` on but the largest `int`. -/
theorem allocated_iff {n : Int} (h : FitsInt n) : allocated n = true ↔ -1 ≤ n ∧ n ≠ intMax := by
  unfold FitsInt intMin intMax at h
  rw [allocated, decide_eq_true_iff]
  unfold wrap32 intMax
  split_ifs <;> omega

/-- The length of a spelled string is an `int` other than the largest one, so that a byte more can
be allocated if it is `-1` or more. -/
theorem StrText.Spelled.allocated_iff {s : StrText} (hs : s.Spelled) :
    allocated s.len = true ↔ -1 ≤ s.len := by
  have hfits : FitsInt s.len := fitsInt_numeral s.digits
  rw [Bencode.allocated_iff hfits, and_iff_left hs.len_ne]

/-- A string whose numeral ends inside the buffer, or has no second digit: what is left to do is to
copy as many bytes as the numeral says. -/
theorem bParseString_digits {pos : Nat} {start : Int} {first : UInt8} {ds : List UInt8}
    (hd : ∀ d ∈ first :: ds, isDigit d = true) (hr : Reads string pos (first :: ds ++ [58]))
    (hlen : ds ≠ [] → (pos + (first :: ds).length : Int) < len) :
    bParseString string len place start first (pos + 1) =
      (copyLoop string len (allocated (numeral (first :: ds))) (numeral (first :: ds)).toNat
        (pos + (first :: ds).length + 1)).bind fun bytes pos' =>
          .ok (.string ⟨if allocated (numeral (first :: ds)) then
            some ⟨place (pos + (first :: ds).length + 1), bytes⟩ else none, numeral (first :: ds)⟩
            start (pos' - 1)) pos' := by
  have hnum := foldl_addDigit_digitVal (hd first List.mem_cons_self) ds
  have hr' : Reads string (pos + 1) (ds ++ 58 :: []) := hr.2
  have hpos : pos + 1 + ds.length = pos + (first :: ds).length := by
    rw [List.length_cons]
    omega
  have hloop := @digitLoop_complete string len (len.toNat + 1) (pos + 1) (digitVal first) 58 ds [] hr'
    (fun d hd' => hd d (List.mem_cons_of_mem first hd')) rfl
    (fun hne => by have := hlen hne; rw [List.length_cons] at this; push_cast at this ⊢; omega)
    ?fuel
  case fuel =>
    by_cases hne : ds = []
    · rw [hne, List.length_nil]
      omega
    · have := hlen hne
      rw [List.length_cons] at this
      omega
  have hnext := hr'.next
  rw [hpos] at hloop hnext
  rw [bParseString, hloop, Result.bind_ok, hnum, readByte_of_eq hnext, Result.bind_ok,
    if_neg (by decide)]

/-- The text of a string is parsed as the string. -/
theorem bParseString_complete {pos : Nat} {s : StrText} {first : UInt8} {ds : List UInt8}
    (hs : s.Spelled) (hds : s.digits = first :: ds) (hr : Reads string pos s.bytes)
    (hlen : (pos + s.bytes.length : Int) ≤ len) :
    bParseString string len place pos first (pos + 1) =
      .ok (.string (s.value place pos) pos (stopOf pos s.bytes)) (pos + s.bytes.length) := by
  rw [length_bytes_str] at hlen
  push_cast at hlen
  rw [StrText.bytes, List.append_cons] at hr
  obtain ⟨hrd, hrp⟩ := reads_append.mp hr
  rw [List.length_append, List.length_singleton, ← Nat.add_assoc] at hrp
  have hblock : s.payload ≠ [] → allocated s.len = true := by
    intro hne
    have hpos := List.length_pos_iff.mpr hne
    have hpay := hs.length_payload
    rw [hs.allocated_iff]
    omega
  have hcopy := @copyLoop_complete string len (allocated s.len) (pos + s.digits.length + 1)
    s.payload hrp (by push_cast; omega) hblock
  have hdigits := @bParseString_digits string len place pos pos first ds (hds ▸ hs.digits)
    (hds ▸ hrd) (fun _ => by rw [← hds]; omega)
  rw [← hds, ← StrText.len, ← hs.length_payload, hcopy, Result.bind_ok] at hdigits
  have hend : pos + s.digits.length + 1 + s.payload.length = pos + s.bytes.length := by
    rw [length_bytes_str]
    omega
  rw [hdigits, hend]
  simp only [StrText.value, StrText.ptr, stopOf, Nat.cast_add]

/-- The end of an integer, from its digits on. -/
theorem bParseInt_digits {pos off : Nat} {sign : UInt8} {ds : List UInt8} {start : Int}
    (hd : ∀ d ∈ ds, isDigit d = true) (hr : Reads string pos (ds ++ [101]))
    (hlen : (pos + ds.length : Int) < len) (hoff : pos + ds.length = off) :
    ((digitLoop string len (len.toNat + 1) 0 pos).bind fun num pos =>
      (readByte string pos).bind fun c pos =>
        if c ≠ 101 then .stop (.code (-2)) pos
        else .ok (BencodeValue.integer (if sign = 45 then wrap32 (num * -1) else num) start pos)
          (pos + 1)) =
      .ok (BencodeValue.integer (integerOf (decide (sign = 45)) ds) start off) (off + 1) := by
  have hloop := @digitLoop_complete string len (len.toNat + 1) pos 0 101 ds [] hr hd rfl
    (fun _ => hlen) (by omega)
  have hnum : ds.foldl addDigit 0 = numeral ds := foldl_addDigit [] ds
  rw [hloop, Result.bind_ok, readByte_of_eq hr.next, Result.bind_ok, if_neg (by decide), hnum, hoff,
    integerOf]
  simp only [decide_eq_true_eq]

/-- The text of an integer is parsed as the integer. -/
theorem bParseInt_complete {pos : Nat} {neg : Bool} {ds : List UInt8}
    (hd : ∀ d ∈ ds, isDigit d = true) (hr : Reads string pos (Syn.integer neg ds).bytes)
    (hlen : (pos + (Syn.integer neg ds).bytes.length : Int) ≤ len) :
    bParseInt string len pos (pos + 1) =
      .ok ((Syn.integer neg ds).value place pos) (pos + (Syn.integer neg ds).bytes.length) := by
  have hstop : ∀ n : Nat, n + 1 = (Syn.integer neg ds).bytes.length →
      stopOf pos (Syn.integer neg ds).bytes = ((pos + n : Nat) : Int) := by
    intro n hn
    rw [stopOf, ← hn]
    push_cast
    omega
  rw [Syn.value]
  cases neg with
  | true =>
      have hlength : (Syn.integer true ds).bytes.length = ds.length + 3 := by simp [Syn.bytes]
      obtain ⟨_, hminus, hr⟩ := hr
      rw [hlength] at hlen
      push_cast at hlen
      rw [bParseInt, eofCheck_of_lt (by push_cast; omega), readByte_of_eq hminus, Result.bind_ok,
        if_pos rfl, hstop (ds.length + 2) hlength.symm, hlength]
      exact @bParseInt_digits string len (pos + 1 + 1) (pos + (ds.length + 2)) 45 ds pos hd hr
        (by push_cast; omega) (by omega)
  | false =>
      have hlength : (Syn.integer false ds).bytes.length = ds.length + 2 := by simp [Syn.bytes]
      obtain ⟨_, hr⟩ := hr
      rw [hlength] at hlen
      push_cast at hlen
      -- the byte after the `i` is a digit or the `e`
      obtain ⟨sign, hsign, hne⟩ : ∃ sign, string (pos + 1) = some sign ∧ sign ≠ 45 := by
        cases ds with
        | nil => exact ⟨101, hr.1, by decide⟩
        | cons d ds =>
            refine ⟨d, hr.1, ?_⟩
            rintro rfl
            exact absurd (hd 45 List.mem_cons_self) (by decide)
      rw [bParseInt, eofCheck_of_lt (by push_cast; omega), readByte_of_eq hsign, Result.bind_ok,
        if_neg hne, hstop (ds.length + 1) hlength.symm, hlength]
      have hdec : decide (sign = 45) = false := decide_eq_false hne
      have := @bParseInt_digits string len (pos + 1) (pos + (ds.length + 1)) sign ds pos hd hr
        (by push_cast; omega) (by omega)
      rwa [hdec] at this

/-- The first byte of a spelled text is not an `e`. -/
theorem Spelled.head_ne {t : Syn} (h : Spelled t) {c : UInt8} {bs : List UInt8}
    (hbytes : t.bytes = c :: bs) : c ≠ 101 := by
  rintro rfl
  cases h with
  | @string s hs =>
      obtain ⟨d, ds, hds⟩ := List.exists_cons_of_ne_nil hs.ne_nil
      rw [Syn.bytes, StrText.bytes, hds] at hbytes
      obtain ⟨rfl, _⟩ := List.cons.inj hbytes
      exact absurd (hs.digits 101 (hds ▸ List.mem_cons_self)) (by decide)
  | integer h => simp [Syn.bytes] at hbytes
  | list h => simp [Syn.bytes] at hbytes
  | dict hkeys h => simp [Syn.bytes] at hbytes

/-- The parser `any` parses the text of `t` wherever it stands inside the buffer. -/
def Parses (string : Nat → Option UInt8) (len : Int) (place : Nat → Addr)
    (any : Nat → Result BencodeValue) (t : Syn) : Prop :=
  ∀ pos, Reads string pos t.bytes → (pos + t.bytes.length : Int) ≤ len →
    any pos = .ok (t.value place pos) (pos + t.bytes.length)

/-- The items of a list are parsed one by one, and the loop goes on behind them. -/
theorem listLoop_items {any : Nat → Result BencodeValue} {fuel pos : Nat} {items : List Syn}
    (hany : ∀ t ∈ items, Parses string len place any t) (hs : ∀ t ∈ items, Spelled t)
    (hr : Reads string pos (bytesItems items))
    (hlen : (pos + (bytesItems items).length : Int) < len) :
    listLoop string len any (items.length + fuel) pos =
      (listLoop string len any fuel (pos + (bytesItems items).length)).bind fun elems pos' =>
        .ok (valueItems place pos items ++ elems) pos' := by
  induction items generalizing pos with
  | nil =>
      rw [List.length_nil, Nat.zero_add, bytesItems, List.length_nil, Nat.add_zero, valueItems]
      cases listLoop string len any fuel pos <;> rfl
  | cons t items ih =>
      rw [bytesItems] at hr
      rw [bytesItems, List.length_append] at hlen ⊢
      push_cast at hlen
      obtain ⟨hrt, hri⟩ := reads_append.mp hr
      obtain ⟨c, bs, hc⟩ := List.exists_cons_of_ne_nil t.bytes_ne_nil
      have hne := (hs t List.mem_cons_self).head_ne hc
      have hhead : string pos = some c := by
        rw [hc] at hrt
        exact hrt.1
      have hrec := @ih (pos + t.bytes.length) (fun u hu => hany u (List.mem_cons_of_mem t hu))
        (fun u hu => hs u (List.mem_cons_of_mem t hu)) hri (by push_cast; omega)
      rw [List.length_cons, Nat.add_right_comm, listLoop, readByte_of_eq hhead, Result.bind_ok,
        if_neg hne, hany t List.mem_cons_self pos hrt (by omega), Result.bind_ok,
        eofCheck_of_lt (by push_cast; omega), hrec, valueItems, Nat.add_assoc]
      cases listLoop string len any fuel (pos + (t.bytes.length + (bytesItems items).length)) <;> rfl

/-- Items up to the `e`. -/
theorem listLoop_complete {any : Nat → Result BencodeValue} {fuel pos : Nat} {items : List Syn}
    (hany : ∀ t ∈ items, Parses string len place any t) (hs : ∀ t ∈ items, Spelled t)
    (hr : Reads string pos (bytesItems items ++ [101]))
    (hlen : (pos + (bytesItems items).length : Int) < len) (hfuel : items.length < fuel) :
    listLoop string len any fuel pos =
      .ok (valueItems place pos items) (pos + (bytesItems items).length) := by
  obtain ⟨fuel, rfl⟩ : ∃ k, fuel = items.length + (k + 1) := ⟨fuel - items.length - 1, by omega⟩
  rw [listLoop_items hany hs (reads_append.mp hr).1 hlen, listLoop, readByte_of_eq hr.next,
    Result.bind_ok, if_pos rfl, Result.bind_ok, List.append_nil]

/-- The keys and values of a dictionary are parsed in turn and put, and the loop goes on behind
them. -/
theorem dictLoop_pairs {any : Nat → Result BencodeValue} {fuel pos : Nat}
    {pairs : List (StrText × Syn)} {dict : BencodeDict}
    (hkey : ∀ p ∈ pairs, Parses string len place any (.string p.1))
    (hany : ∀ p ∈ pairs, Parses string len place any p.2)
    (hkeys : ∀ p ∈ pairs, p.1.KeySpelled) (hr : Reads string pos (bytesPairs pairs))
    (hlen : (pos + (bytesPairs pairs).length : Int) < len) :
    dictLoop string len any (pairs.length + fuel) dict pos =
      dictLoop string len any fuel (tableOf place pos pairs dict)
        (pos + (bytesPairs pairs).length) := by
  induction pairs generalizing pos dict with
  | nil => rw [List.length_nil, Nat.zero_add, bytesPairs, List.length_nil, Nat.add_zero, tableOf]
  | cons p pairs ih =>
      obtain ⟨key, t⟩ := p
      have hks := hkeys (key, t) List.mem_cons_self
      rw [bytesPairs, List.append_assoc] at hr
      rw [bytesPairs, List.length_append, List.length_append] at hlen ⊢
      push_cast at hlen
      obtain ⟨hrk, hr'⟩ := reads_append.mp hr
      obtain ⟨hrt, hrp⟩ := reads_append.mp hr'
      obtain ⟨c, bs, hc⟩ := List.exists_cons_of_ne_nil (Syn.string key).bytes_ne_nil
      have hne := (Spelled.string hks.toSpelled).head_ne hc
      have hhead : string pos = some c := by
        rw [← Syn.bytes, hc] at hrk
        exact hrk.1
      have hkrun := hkey (key, t) List.mem_cons_self pos hrk (by
        show (pos + key.bytes.length : Int) ≤ len
        omega)
      have htrun := hany (key, t) List.mem_cons_self (pos + key.bytes.length) hrt
        (by push_cast; omega)
      have hptr : key.value place pos = ⟨some (key.ptr place pos), key.len⟩ := by
        rw [StrText.value, if_pos (hks.allocated_iff.mpr hks.neg_one_le_len)]
      have hrec := @ih (pos + key.bytes.length + t.bytes.length)
        (dict.put hashFuncStr cmpFuncStr (key.ptr place pos)
          (t.value place (pos + key.bytes.length)))
        (fun q hq => hkey q (List.mem_cons_of_mem _ hq))
        (fun q hq => hany q (List.mem_cons_of_mem _ hq))
        (fun q hq => hkeys q (List.mem_cons_of_mem _ hq)) hrp (by push_cast; omega)
      rw [Syn.value, hptr, Syn.bytes] at hkrun
      rw [List.length_cons, Nat.add_right_comm, dictLoop, readByte_of_eq hhead, Result.bind_ok,
        if_neg hne, hkrun, Result.bind_ok, eofCheck_of_lt (by push_cast; omega), htrun,
        Result.bind_ok, eofCheck_of_lt (by push_cast; omega)]
      simp only
      rw [hrec, tableOf]
      congr 1
      omega

/-- Keys and values up to the `e`. -/
theorem dictLoop_complete {any : Nat → Result BencodeValue} {fuel pos : Nat}
    {pairs : List (StrText × Syn)} {dict : BencodeDict}
    (hkey : ∀ p ∈ pairs, Parses string len place any (.string p.1))
    (hany : ∀ p ∈ pairs, Parses string len place any p.2)
    (hkeys : ∀ p ∈ pairs, p.1.KeySpelled)
    (hr : Reads string pos (bytesPairs pairs ++ [101]))
    (hlen : (pos + (bytesPairs pairs).length : Int) < len) (hfuel : pairs.length < fuel) :
    dictLoop string len any fuel dict pos =
      .ok (tableOf place pos pairs dict) (pos + (bytesPairs pairs).length) := by
  obtain ⟨fuel, rfl⟩ : ∃ k, fuel = pairs.length + (k + 1) := ⟨fuel - pairs.length - 1, by omega⟩
  rw [dictLoop_pairs hkey hany hkeys (reads_append.mp hr).1 hlen, dictLoop, readByte_of_eq hr.next,
    Result.bind_ok, if_pos rfl]

/-- At an `i` an integer is parsed. -/
theorem bParseAny_of_i {depth pos : Nat} (hc : string pos = some 105) (hlt : (pos : Int) < len) :
    bParseAny string len place (depth + 1) pos = bParseInt string len pos (pos + 1) := by
  rw [bParseAny, eofCheck_of_lt hlt, readByte_of_eq hc, Result.bind_ok, if_pos rfl]

/-- At an `l` a list is parsed. -/
theorem bParseAny_of_l {depth pos : Nat} (hc : string pos = some 108) (hlt : (pos : Int) < len) :
    bParseAny string len place (depth + 1) pos =
      bParseList string len (bParseAny string len place depth) pos (pos + 1) := by
  rw [bParseAny, eofCheck_of_lt hlt, readByte_of_eq hc, Result.bind_ok, if_neg (by decide),
    if_pos rfl]

/-- At a `d` a dictionary is parsed. -/
theorem bParseAny_of_d {depth pos : Nat} (hc : string pos = some 100) (hlt : (pos : Int) < len) :
    bParseAny string len place (depth + 1) pos =
      bParseDict string len (bParseAny string len place depth) pos (pos + 1) := by
  rw [bParseAny, eofCheck_of_lt hlt, readByte_of_eq hc, Result.bind_ok, if_neg (by decide),
    if_neg (by decide), if_pos rfl]

/-- At a digit a string is parsed. -/
theorem bParseAny_of_digit {depth pos : Nat} {c : UInt8} (hc : string pos = some c)
    (hdigit : isDigit c = true) (hlt : (pos : Int) < len) :
    bParseAny string len place (depth + 1) pos = bParseString string len place pos c (pos + 1) := by
  have hne : ∀ b, isDigit b = false → c ≠ b := by
    rintro b hb rfl
    rw [hdigit] at hb
    exact absurd hb (by decide)
  rw [bParseAny, eofCheck_of_lt hlt, readByte_of_eq hc, Result.bind_ok, if_neg (hne 105 rfl),
    if_neg (hne 108 rfl), if_neg (hne 100 rfl), if_pos hdigit]

/-- A spelled string is parsed. -/
theorem bParseAny_string {s : StrText} (hs : s.Spelled) (depth : Nat) :
    Parses string len place (bParseAny string len place (depth + 1)) (.string s) := by
  intro pos hr hlen
  obtain ⟨first, ds, hds⟩ := List.exists_cons_of_ne_nil hs.ne_nil
  have hfirst : isDigit first = true := hs.digits first (hds ▸ List.mem_cons_self)
  have hpos := List.length_pos_iff.mpr (Syn.string s).bytes_ne_nil
  have hhead : string pos = some first := by
    rw [Syn.bytes, StrText.bytes, hds] at hr
    exact hr.1
  rw [bParseAny_of_digit hhead hfirst (by omega), Syn.value, Syn.bytes]
  exact bParseString_complete hs hds hr hlen

/-- **Completeness.** Where the memory holds the text of a spelled tree, inside the buffer, the
parser returns its value and stands right behind the text. -/
theorem bParseAny_complete {t : Syn} (h : Spelled t) {depth : Nat} (hdepth : t.bytes.length ≤ depth) :
    Parses string len place (bParseAny string len place depth) t := by
  induction h generalizing depth with
  | @string s hs =>
      have hpos := List.length_pos_iff.mpr (Syn.string s).bytes_ne_nil
      obtain ⟨depth, rfl⟩ : ∃ k, depth = k + 1 := ⟨depth - 1, by omega⟩
      exact bParseAny_string hs depth
  | @integer neg ds hd =>
      intro pos hr hlen
      have hpos := List.length_pos_iff.mpr (Syn.integer neg ds).bytes_ne_nil
      obtain ⟨depth, rfl⟩ : ∃ k, depth = k + 1 := ⟨depth - 1, by omega⟩
      rw [bParseAny_of_i hr.1 (by omega)]
      exact bParseInt_complete hd hr hlen
  | @list items hs ih =>
      intro pos hr hlen
      have hlength : (Syn.list items).bytes.length = (bytesItems items).length + 2 := by
        simp [Syn.bytes]
      rw [hlength] at hdepth hlen ⊢
      push_cast at hlen
      obtain ⟨depth, rfl⟩ : ∃ k, depth = k + 1 := ⟨depth - 1, by omega⟩
      have hcount := length_le_bytesItems items
      have hend : pos + 1 + (bytesItems items).length + 1 =
          pos + ((bytesItems items).length + 2) := by omega
      have hstop : ((pos + 1 + (bytesItems items).length : Nat) : Int) =
          (pos : Int) + ((bytesItems items).length + 2 : Nat) - 1 := by omega
      have hany : ∀ t ∈ items, Parses string len place (bParseAny string len place depth) t := by
        intro t ht
        have := length_le_of_mem_items ht
        exact ih t ht (by omega)
      have hloop := @listLoop_complete string len place _ (len.toNat + 1) (pos + 1) items hany hs hr.2
        (by push_cast; omega) (by omega)
      rw [bParseAny_of_l hr.1 (by omega), bParseList, eofCheck_of_lt (by push_cast; omega), hloop,
        Result.bind_ok, Syn.value, stopOf, hlength, hstop, hend]
  | @dict pairs hkeys hs ih =>
      intro pos hr hlen
      have hlength : (Syn.dict pairs).bytes.length = (bytesPairs pairs).length + 2 := by
        simp [Syn.bytes]
      rw [hlength] at hdepth hlen ⊢
      push_cast at hlen
      obtain ⟨depth, rfl⟩ : ∃ k, depth = k + 1 := ⟨depth - 1, by omega⟩
      have hcount := length_le_bytesPairs pairs
      have hend : pos + 1 + (bytesPairs pairs).length + 1 =
          pos + ((bytesPairs pairs).length + 2) := by omega
      have hstop : ((pos + 1 + (bytesPairs pairs).length : Nat) : Int) =
          (pos : Int) + ((bytesPairs pairs).length + 2 : Nat) - 1 := by omega
      have hany : ∀ p ∈ pairs, Parses string len place (bParseAny string len place depth) p.2 := by
        intro p hp
        have := length_le_of_mem_pairs hp
        exact ih p hp (by omega)
      have hkey : ∀ p ∈ pairs,
          Parses string len place (bParseAny string len place depth) (.string p.1) := by
        intro p hp
        have hle := length_le_of_mem_pairs hp
        have hpos := List.length_pos_iff.mpr (Syn.string p.1).bytes_ne_nil
        rw [Syn.bytes] at hpos
        obtain ⟨depth, rfl⟩ : ∃ k, depth = k + 1 := ⟨depth - 1, by omega⟩
        exact bParseAny_string (hkeys p hp).toSpelled depth
      have hloop := @dictLoop_complete string len place _ (len.toNat + 1) (pos + 1) pairs Table.init
        hkey hany hkeys hr.2 (by push_cast; omega) (by omega)
      rw [bParseAny_of_d hr.1 (by omega), bParseDict, eofCheck_of_lt (by push_cast; omega), hloop,
        Result.bind_ok, Syn.value, stopOf, hlength, hstop, hend]

/-- The items of a list are parsed, where there is fuel for all of them. -/
theorem parses_items {items : List Syn} (h : ∀ t ∈ items, Spelled t) {depth : Nat}
    (hdepth : (bytesItems items).length ≤ depth) :
    ∀ t ∈ items, Parses string len place (bParseAny string len place depth) t := fun t ht =>
  bParseAny_complete (h t ht) ((length_le_of_mem_items ht).trans hdepth)

/-- The keys of a dictionary are parsed, where there is fuel for all pairs. -/
theorem parses_keys {pairs : List (StrText × Syn)} (h : ∀ p ∈ pairs, p.1.KeySpelled) {depth : Nat}
    (hdepth : (bytesPairs pairs).length ≤ depth) :
    ∀ p ∈ pairs, Parses string len place (bParseAny string len place depth) (.string p.1) := by
  intro p hp
  have hle := length_le_of_mem_pairs hp
  exact bParseAny_complete (.string (h p hp).toSpelled) (by rw [Syn.bytes]; omega)

/-- The values of a dictionary are parsed, where there is fuel for all pairs. -/
theorem parses_values {pairs : List (StrText × Syn)} (h : ∀ p ∈ pairs, Spelled p.2) {depth : Nat}
    (hdepth : (bytesPairs pairs).length ≤ depth) :
    ∀ p ∈ pairs, Parses string len place (bParseAny string len place depth) p.2 := by
  intro p hp
  have hle := length_le_of_mem_pairs hp
  exact bParseAny_complete (h p hp) (by omega)

end Flood.Bencode
