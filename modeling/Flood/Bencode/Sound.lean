import Flood.Bencode.Syntax

/-!
# What the parser accepts is a text

Where the byte behind the buffer can end no construct — a NUL, say — a value is returned only for
the text of a spelled tree that lies inside the buffer, and the cursor stands right behind it.

* `Sentinel` — the byte behind the buffer is no digit, no `:` and no `e`.
* `digitLoop_sound`, `copyLoop_sound`, `bParseString_sound`, `bParseInt_sound`, `listLoop_sound`,
  `dictLoop_sound` — one lemma for each loop and function.
* `bParseAny_text` — in any memory, the text may reach one byte behind the buffer.
* `bParseAny_sound`, `bencodeParse_eq_ok_iff` — the whole parser, and with completeness both
  directions.
-/

namespace Flood.Bencode

open Flood.Lib Flood.Hashtable

variable {string : Nat → Option UInt8} {len : Int} {place : Nat → Addr}

/-- The byte behind the buffer, if there is one, is no digit, no `:` and no `e`. -/
def Sentinel (string : Nat → Option UInt8) (len : Int) : Prop :=
  ∀ c, string len.toNat = some c → isDigit c = false ∧ c ≠ 58 ∧ c ≠ 101

/-! ## Single steps -/

/-- What is behind a passed check is inside the buffer. -/
theorem eofCheck_eq_ok_iff {α : Type} {pos pos' : Nat} {k : Result α} {a : α} :
    eofCheck len pos k = .ok a pos' ↔ (pos : Int) < len ∧ k = .ok a pos' := by
  unfold eofCheck
  split_ifs with h
  · simp [not_lt.mpr h]
  · simp [not_le.mp h]

/-- A byte read is in the memory, and the cursor stays. -/
theorem readByte_eq_ok_iff {pos pos' : Nat} {c : UInt8} :
    readByte string pos = .ok c pos' ↔ string pos = some c ∧ pos' = pos := by
  unfold readByte
  cases string pos with
  | none => simp
  | some d => simp [eq_comm]

/-! ## Loops and functions -/

/-- The digit loop stops behind a run of digits; if it has read one, inside the buffer. -/
theorem digitLoop_sound {fuel pos pos' : Nat} {n m : Int}
    (h : digitLoop string len fuel n pos = .ok m pos') :
    ∃ ds c, (∀ d ∈ ds, isDigit d = true) ∧ Reads string pos (ds ++ [c]) ∧ isDigit c = false ∧
      pos' = pos + ds.length ∧ m = ds.foldl addDigit n ∧ (ds ≠ [] → (pos' : Int) < len) := by
  induction fuel generalizing n pos with
  | zero => simp [digitLoop] at h
  | succ fuel ih =>
      rw [digitLoop, Result.bind_eq_ok_iff] at h
      obtain ⟨c, p, hread, h⟩ := h
      obtain ⟨hc, rfl⟩ := readByte_eq_ok_iff.mp hread
      split_ifs at h with hd
      · rw [eofCheck_eq_ok_iff] at h
        obtain ⟨hlt, h⟩ := h
        obtain ⟨ds, e, hds, hr, he, hpos, hm, hin⟩ := ih h
        refine ⟨c :: ds, e, List.forall_mem_cons.mpr ⟨hd, hds⟩, ⟨hc, hr⟩, he, ?_, hm, ?_⟩
        · rw [hpos, List.length_cons]
          omega
        · intro _
          by_cases hnil : ds = []
          · rw [hpos, hnil]
            exact hlt
          · exact hin hnil
      · simp only [Result.ok.injEq] at h
        obtain ⟨rfl, rfl⟩ := h
        refine ⟨[], c, fun d hd => absurd hd List.not_mem_nil, ⟨hc, trivial⟩, ?_, rfl, rfl, ?_⟩
        · exact Bool.eq_false_iff.mpr hd
        · exact fun hne => absurd rfl hne

/-- Digits up to a byte that must be there: they are read, and the rest of the function follows. -/
theorem digitLoop_upTo {α : Type} {fuel pos pos' : Nat} {n : Int} {stop : UInt8} {e : Stop}
    {k : Int → Nat → Result α} {v : α}
    (h : ((digitLoop string len fuel n pos).bind fun num pos =>
      (readByte string pos).bind fun c pos =>
        if c ≠ stop then .stop e pos else k num pos) = .ok v pos') :
    ∃ ds, (∀ d ∈ ds, isDigit d = true) ∧ Reads string pos (ds ++ [stop]) ∧
      (ds ≠ [] → (pos + ds.length : Int) < len) ∧
      k (ds.foldl addDigit n) (pos + ds.length) = .ok v pos' := by
  rw [Result.bind_eq_ok_iff] at h
  obtain ⟨num, p, hloop, h⟩ := h
  obtain ⟨ds, c, hds, hr, _, rfl, rfl, hin⟩ := digitLoop_sound hloop
  rw [readByte_of_eq hr.next, Result.bind_ok, ite_eq_iff] at h
  rcases h with ⟨_, h⟩ | ⟨hc, h⟩
  · exact absurd h (by simp)
  · obtain rfl := not_not.mp hc
    exact ⟨ds, hds, hr, fun hne => by exact_mod_cast hin hne, h⟩

/-- The copy loop copies the bytes it passes, all inside the buffer and into a block. -/
theorem copyLoop_sound {block : Bool} {n pos pos' : Nat} {bs : List UInt8}
    (h : copyLoop string len block n pos = .ok bs pos') :
    bs.length = n ∧ Reads string pos bs ∧ pos' = pos + n ∧
      (n ≠ 0 → (pos' : Int) ≤ len ∧ block = true) := by
  induction n generalizing pos bs with
  | zero =>
      simp only [copyLoop, Result.ok.injEq] at h
      obtain ⟨rfl, rfl⟩ := h
      exact ⟨rfl, trivial, rfl, fun hne => absurd rfl hne⟩
  | succ n ih =>
      rw [copyLoop, eofCheck_eq_ok_iff] at h
      obtain ⟨hlt, h⟩ := h
      rw [Result.bind_eq_ok_iff] at h
      obtain ⟨c, p, hread, h⟩ := h
      obtain ⟨hc, rfl⟩ := readByte_eq_ok_iff.mp hread
      obtain rfl : block = true := by
        by_contra hne
        rw [if_neg hne] at h
        exact absurd h (by simp)
      rw [if_pos rfl] at h
      rw [Result.bind_eq_ok_iff] at h
      obtain ⟨bytes, q, hrec, h⟩ := h
      simp only [Result.ok.injEq] at h
      obtain ⟨rfl, rfl⟩ := h
      obtain ⟨hlength, hr, hpos, hin⟩ := ih hrec
      refine ⟨by rw [List.length_cons, hlength], ⟨hc, hr⟩, by omega, fun _ => ⟨?_, rfl⟩⟩
      by_cases hn : n = 0
      · rw [hpos, hn]
        omega
      · exact (hin hn).1

/-- One byte more than the largest `int` is a negative number of bytes, and there is no block. -/
theorem allocated_intMax : allocated intMax = false := rfl

/-- The cursor is in the buffer, or one byte further, where that byte is the `:` of an empty string or
the `e` of an integer. -/
def Near (string : Nat → Option UInt8) (len : Int) (pos : Nat) : Prop :=
  (pos : Int) ≤ len ∨
    (pos : Int) = len + 1 ∧ ∃ c, string len.toNat = some c ∧ (c = 58 ∨ c = 101)

/-- Behind a sentinel, near is inside. -/
theorem Near.le {pos : Nat} (h : Near string len pos) (hsent : Sentinel string len) :
    (pos : Int) ≤ len := by
  rcases h with h | ⟨_, c, hc, h | h⟩
  · exact h
  · exact absurd h (hsent c hc).2.1
  · exact absurd h (hsent c hc).2.2

/-- **What `b_parse_string` has done when it returns**: it has read digits and a colon, and copied as
many bytes as the digits say as an `int`. -/
theorem bParseString_inv {pos pos' : Nat} {start : Int} {first : UInt8} {v : BencodeValue}
    (hfirst : isDigit first = true) (hread : string pos = some first)
    (h : bParseString string len place start first (pos + 1) = .ok v pos') :
    ∃ ds bytes, (∀ d ∈ first :: ds, isDigit d = true) ∧
      Reads string pos (first :: ds ++ 58 :: bytes) ∧
      (ds ≠ [] → (pos + (first :: ds).length : Int) < len) ∧
      bytes.length = (numeral (first :: ds)).toNat ∧
      pos' = pos + (first :: ds).length + 1 + bytes.length ∧
      (bytes ≠ [] → (pos' : Int) ≤ len ∧ allocated (numeral (first :: ds)) = true) ∧
      v = .string ⟨if allocated (numeral (first :: ds)) then
        some ⟨place (pos + (first :: ds).length + 1), bytes⟩ else none, numeral (first :: ds)⟩
        start (pos' - 1) := by
  rw [bParseString] at h
  obtain ⟨ds, hds, hr, hin, h⟩ := digitLoop_upTo h
  rw [Result.bind_eq_ok_iff, foldl_addDigit_digitVal hfirst] at h
  obtain ⟨bytes, q, hcopy, h⟩ := h
  rw [Result.ok.injEq] at h
  obtain ⟨hv, rfl⟩ := h
  obtain ⟨hlength, hrb, hq, hblock⟩ := copyLoop_sound hcopy
  have hpos : pos + 1 + ds.length = pos + (first :: ds).length := by
    rw [List.length_cons]
    omega
  rw [hpos] at hq hv
  refine ⟨ds, bytes, List.forall_mem_cons.mpr ⟨hfirst, hds⟩, ?_, ?_, hlength, ?_, ?_, hv.symm⟩
  · rw [List.cons_append, reads_cons, reads_append, reads_cons]
    obtain ⟨hdigits, hcolon, -⟩ := reads_append.mp hr
    exact ⟨hread, hdigits, hcolon, hrb⟩
  · intro hne
    have := hin hne
    push_cast [List.length_cons] at this ⊢
    omega
  · rw [hq, hlength]
  · intro hne
    have := List.length_pos_iff.mpr hne
    exact hblock (by omega)

/-- A string is returned for its text only. -/
theorem bParseString_sound {pos pos' : Nat} {first : UInt8}
    {v : BencodeValue} (hfirst : isDigit first = true) (hread : string pos = some first)
    (hlt : (pos : Int) < len) (h : bParseString string len place pos first (pos + 1) = .ok v pos') :
    ∃ s : StrText, s.Spelled ∧ Reads string pos s.bytes ∧ pos' = pos + s.bytes.length ∧
      Near string len pos' ∧ v = (Syn.string s).value place pos := by
  obtain ⟨ds, bytes, hds, hr, hin, hlength, hend, hblock, hv⟩ := bParseString_inv hfirst hread h
  have hend' : pos' = pos + (StrText.mk (first :: ds) bytes).bytes.length := by
    rw [hend, length_bytes_str]
    show pos + (first :: ds).length + 1 + bytes.length = pos + ((first :: ds).length + 1 + bytes.length)
    omega
  refine ⟨⟨first :: ds, bytes⟩, ⟨List.cons_ne_nil first ds, hds, hlength, ?_⟩, hr, hend', ?_, ?_⟩
  · intro hmax
    rw [StrText.len] at hmax
    rw [hmax] at hlength hblock
    have hne : bytes ≠ [] := fun hnil => by
      rw [hnil, List.length_nil] at hlength
      exact absurd hlength (by decide)
    have := (hblock hne).2
    rw [allocated_intMax] at this
    exact absurd this (by decide)
  · by_cases hnil : bytes = []
    · rw [hnil, List.length_nil, Nat.add_zero] at hend
      by_cases hcolon : (pos + (first :: ds).length : Int) < len
      · exact .inl (by push_cast [hend]; omega)
      · -- the colon may stand right behind the buffer
        obtain rfl : ds = [] := by
          by_contra hne
          exact hcolon (hin hne)
        rw [List.length_singleton] at hend hcolon
        have hpos : len.toNat = pos + 1 := by omega
        exact .inr ⟨by push_cast [hend]; omega, 58, hpos ▸ hr.2.1, .inl rfl⟩
    · exact .inl (hblock hnil).1
  · rw [hv, Syn.value, StrText.value, StrText.ptr, StrText.len, stopOf, Syn.bytes, hend']
    push_cast
    rfl

/-- The end of an integer, from its digits on, is its digits and an `e`. -/
theorem bParseInt_digits_sound {pos pos' : Nat} {sign : UInt8} {start : Int} {v : BencodeValue}
    (hle : (pos : Int) ≤ len)
    (h : ((digitLoop string len (len.toNat + 1) 0 pos).bind fun num pos =>
      (readByte string pos).bind fun c pos =>
        if c ≠ 101 then .stop (.code (-2)) pos
        else .ok (BencodeValue.integer (if sign = 45 then wrap32 (num * -1) else num) start pos)
          (pos + 1)) = .ok v pos') :
    ∃ ds, (∀ d ∈ ds, isDigit d = true) ∧ Reads string pos (ds ++ [101]) ∧
      pos' = pos + ds.length + 1 ∧ Near string len pos' ∧
      v = .integer (integerOf (decide (sign = 45)) ds) start (pos + ds.length : Nat) := by
  obtain ⟨ds, hds, hr, hin, h⟩ := digitLoop_upTo h
  rw [Result.ok.injEq] at h
  obtain ⟨hv, rfl⟩ := h
  have hnum : ds.foldl addDigit 0 = numeral ds := foldl_addDigit [] ds
  refine ⟨ds, hds, hr, rfl, ?_, ?_⟩
  · by_cases hnil : ds = []
    · -- the `e` may stand right behind the buffer
      rw [hnil, List.nil_append] at hr
      rw [hnil, List.length_nil]
      by_cases hend : (pos : Int) < len
      · exact .inl (by push_cast; omega)
      · have hpos : len.toNat = pos + 0 := by omega
        exact .inr ⟨by push_cast; omega, 101, hpos ▸ hr.1, .inr rfl⟩
    · have := hin hnil
      exact .inl (by push_cast at this ⊢; omega)
  · rw [← hv, hnum, integerOf]
    simp only [decide_eq_true_eq]

/-- An integer is returned for its text only. -/
theorem bParseInt_sound {pos pos' : Nat} {v : BencodeValue} (hread : string pos = some 105)
    (h : bParseInt string len pos (pos + 1) = .ok v pos') :
    ∃ neg ds, (∀ d ∈ ds, isDigit d = true) ∧ Reads string pos (Syn.integer neg ds).bytes ∧
      pos' = pos + (Syn.integer neg ds).bytes.length ∧ Near string len pos' ∧
      v = (Syn.integer neg ds).value place pos := by
  rw [bParseInt, eofCheck_eq_ok_iff, Result.bind_eq_ok_iff] at h
  obtain ⟨hlt, sign, p, hsread, h⟩ := h
  obtain ⟨hsign, rfl⟩ := readByte_eq_ok_iff.mp hsread
  by_cases hminus : sign = 45
  · rw [if_pos hminus] at h
    obtain ⟨ds, hds, hr, hpos, hnear, hv⟩ := bParseInt_digits_sound (by push_cast at hlt ⊢; omega) h
    have hlength : (Syn.integer true ds).bytes.length = ds.length + 3 := by simp [Syn.bytes]
    refine ⟨true, ds, hds, ⟨hread, hminus ▸ hsign, hr⟩, ?_, hnear, ?_⟩
    · rw [hlength, hpos]
      omega
    · rw [hv, Syn.value, stopOf, hlength, decide_eq_true hminus]
      congr 1
      push_cast
      omega
  · rw [if_neg hminus] at h
    obtain ⟨ds, hds, hr, hpos, hnear, hv⟩ := bParseInt_digits_sound hlt.le h
    have hlength : (Syn.integer false ds).bytes.length = ds.length + 2 := by simp [Syn.bytes]
    refine ⟨false, ds, hds, ⟨hread, hr⟩, ?_, hnear, ?_⟩
    · rw [hlength, hpos]
      omega
    · rw [hv, Syn.value, stopOf, hlength, decide_eq_false hminus]
      congr 1
      push_cast
      omega

/-- What `any` returns is the value of a spelled text that starts where it starts, and the cursor is
near. -/
def FindsNear (string : Nat → Option UInt8) (len : Int) (place : Nat → Addr)
    (any : Nat → Result BencodeValue) : Prop :=
  ∀ pos v pos', any pos = .ok v pos' →
    ∃ t, Spelled t ∧ Reads string pos t.bytes ∧ pos' = pos + t.bytes.length ∧ Near string len pos' ∧
      v = t.value place pos

/-- What `any` returns is the value of a spelled text that starts where it starts. -/
def Finds (string : Nat → Option UInt8) (len : Int) (place : Nat → Addr)
    (any : Nat → Result BencodeValue) : Prop :=
  ∀ pos v pos', any pos = .ok v pos' →
    ∃ t, Spelled t ∧ Reads string pos t.bytes ∧ pos' = pos + t.bytes.length ∧ (pos' : Int) ≤ len ∧
      v = t.value place pos

/-- The list loop returns the values of spelled items, up to an `e`. -/
theorem listLoop_sound {any : Nat → Result BencodeValue} (hany : FindsNear string len place any)
    {fuel pos pos' : Nat} {elems : List BencodeValue} (hlt : (pos : Int) < len)
    (h : listLoop string len any fuel pos = .ok elems pos') :
    ∃ items, (∀ t ∈ items, Spelled t) ∧ Reads string pos (bytesItems items ++ [101]) ∧
      pos' = pos + (bytesItems items).length ∧ (pos' : Int) < len ∧
      elems = valueItems place pos items := by
  induction fuel generalizing pos elems with
  | zero => simp [listLoop] at h
  | succ fuel ih =>
      rw [listLoop, Result.bind_eq_ok_iff] at h
      obtain ⟨c, p, hcread, h⟩ := h
      obtain ⟨hc, rfl⟩ := readByte_eq_ok_iff.mp hcread
      by_cases hend : c = 101
      · rw [if_pos hend] at h
        simp only [Result.ok.injEq] at h
        obtain ⟨rfl, rfl⟩ := h
        exact ⟨[], fun t ht => absurd ht List.not_mem_nil, ⟨hend ▸ hc, trivial⟩, rfl, hlt, rfl⟩
      · rw [if_neg hend, Result.bind_eq_ok_iff] at h
        obtain ⟨elem, q, helem, h⟩ := h
        obtain ⟨t, hs, hr, rfl, hle, rfl⟩ := hany p elem q helem
        rw [eofCheck_eq_ok_iff, Result.bind_eq_ok_iff] at h
        obtain ⟨hlt', elems', q', hrec, h⟩ := h
        simp only [Result.ok.injEq] at h
        obtain ⟨rfl, rfl⟩ := h
        obtain ⟨items, hitems, hr', hq', hlt'', rfl⟩ := ih hlt' hrec
        refine ⟨t :: items, List.forall_mem_cons.mpr ⟨hs, hitems⟩, ?_, ?_, hlt'', rfl⟩
        · rw [bytesItems, List.append_assoc]
          exact reads_append.mpr ⟨hr, hr'⟩
        · rw [hq', bytesItems, List.length_append, Nat.add_assoc]

/-- The dictionary loop puts the values of spelled pairs, up to an `e`. -/
theorem dictLoop_sound {any : Nat → Result BencodeValue} (hany : FindsNear string len place any)
    {fuel pos pos' : Nat} {dict dict' : BencodeDict} (hlt : (pos : Int) < len)
    (h : dictLoop string len any fuel dict pos = .ok dict' pos') :
    ∃ pairs : List (StrText × Syn), (∀ p ∈ pairs, p.1.KeySpelled) ∧ (∀ p ∈ pairs, Spelled p.2) ∧
      Reads string pos (bytesPairs pairs ++ [101]) ∧ pos' = pos + (bytesPairs pairs).length ∧
      (pos' : Int) < len ∧ dict' = tableOf place pos pairs dict := by
  induction fuel generalizing pos dict with
  | zero => simp [dictLoop] at h
  | succ fuel ih =>
      rw [dictLoop, Result.bind_eq_ok_iff] at h
      obtain ⟨c, p, hcread, h⟩ := h
      obtain ⟨hc, rfl⟩ := readByte_eq_ok_iff.mp hcread
      by_cases hend : c = 101
      · rw [if_pos hend] at h
        simp only [Result.ok.injEq] at h
        obtain ⟨rfl, rfl⟩ := h
        exact ⟨[], fun t ht => absurd ht List.not_mem_nil, fun t ht => absurd ht List.not_mem_nil,
          ⟨hend ▸ hc, trivial⟩, rfl, hlt, rfl⟩
      · rw [if_neg hend, Result.bind_eq_ok_iff] at h
        obtain ⟨key, q, hkey, h⟩ := h
        obtain ⟨tk, hsk, hrk, rfl, _, rfl⟩ := hany p key q hkey
        rw [eofCheck_eq_ok_iff, Result.bind_eq_ok_iff] at h
        obtain ⟨_, val, q, hval, h⟩ := h
        obtain ⟨t, hs, hr, rfl, _, rfl⟩ := hany _ val q hval
        rw [eofCheck_eq_ok_iff] at h
        obtain ⟨hlt', h⟩ := h
        cases hsk with
        | @string s hspelled =>
            rw [Syn.value, StrText.value] at h
            by_cases halloc : allocated s.len = true
            · rw [if_pos halloc] at h
              have hks : s.KeySpelled := ⟨hspelled, hspelled.allocated_iff.mp halloc⟩
              obtain ⟨pairs, hkeys, hvals, hr', hq', hlt'', hdict⟩ := ih hlt' h
              refine ⟨(s, t) :: pairs, List.forall_mem_cons.mpr ⟨hks, hkeys⟩,
                List.forall_mem_cons.mpr ⟨hs, hvals⟩, ?_, ?_, hlt'', ?_⟩
              · rw [bytesPairs, List.append_assoc, List.append_assoc]
                exact reads_append.mpr ⟨hrk, reads_append.mpr ⟨hr, hr'⟩⟩
              · rw [hq', bytesPairs, List.length_append, List.length_append, Syn.bytes]
                omega
              · rw [hdict, tableOf, Syn.bytes]
            · rw [if_neg halloc] at h
              exact absurd h (by simp)
        | integer _ => exact absurd h (by simp [Syn.value])
        | list _ => exact absurd h (by simp [Syn.value])
        | dict _ _ => exact absurd h (by simp [Syn.value])

/-! ## The whole parser -/

/-- **The parser returns a value only for a text** of a spelled tree, from the cursor to where the
cursor then stands, near the buffer. -/
theorem bParseAny_text (depth : Nat) :
    FindsNear string len place (bParseAny string len place depth) := by
  induction depth with
  | zero =>
      intro pos v pos' h
      simp [bParseAny] at h
  | succ depth ih =>
      intro pos v pos' h
      rw [bParseAny, eofCheck_eq_ok_iff, Result.bind_eq_ok_iff] at h
      obtain ⟨hlt, c, p, hcread, h⟩ := h
      obtain ⟨hc, rfl⟩ := readByte_eq_ok_iff.mp hcread
      split_ifs at h with hi hl hd hdigit
      · obtain rfl := hi
        obtain ⟨neg, ds, hds, hr, hpos, hle, hv⟩ := bParseInt_sound hc h
        exact ⟨.integer neg ds, .integer hds, hr, hpos, hle, hv⟩
      · obtain rfl := hl
        rw [bParseList, eofCheck_eq_ok_iff, Result.bind_eq_ok_iff] at h
        obtain ⟨hlt', elems, q, hloop, h⟩ := h
        obtain ⟨items, hitems, hr, rfl, hlt'', rfl⟩ := listLoop_sound ih hlt' hloop
        simp only [Result.ok.injEq] at h
        obtain ⟨rfl, rfl⟩ := h
        have hlength : (Syn.list items).bytes.length = (bytesItems items).length + 2 := by
          simp [Syn.bytes]
        refine ⟨.list items, .list hitems, ⟨hc, hr⟩, ?_, .inl (by push_cast at hlt'' ⊢; omega), ?_⟩
        · rw [hlength]
          omega
        · rw [Syn.value, stopOf, hlength]
          congr 1
          push_cast
          omega
      · obtain rfl := hd
        rw [bParseDict, eofCheck_eq_ok_iff, Result.bind_eq_ok_iff] at h
        obtain ⟨hlt', dict, q, hloop, h⟩ := h
        obtain ⟨pairs, hkeys, hvals, hr, rfl, hlt'', rfl⟩ := dictLoop_sound ih hlt' hloop
        simp only [Result.ok.injEq] at h
        obtain ⟨rfl, rfl⟩ := h
        have hlength : (Syn.dict pairs).bytes.length = (bytesPairs pairs).length + 2 := by
          simp [Syn.bytes]
        refine ⟨.dict pairs, .dict hkeys hvals, ⟨hc, hr⟩, ?_, .inl (by push_cast at hlt'' ⊢; omega), ?_⟩
        · rw [hlength]
          omega
        · rw [Syn.value, stopOf, hlength]
          congr 1
          push_cast
          omega
      · obtain ⟨s, hs, hr, hpos, hle, hv⟩ := bParseString_sound hdigit hc hlt h
        exact ⟨.string s, .string hs, hr, hpos, hle, hv⟩

/-- **Soundness.** Behind a sentinel, the text lies inside the buffer. -/
theorem bParseAny_sound (hsent : Sentinel string len) (depth : Nat) :
    Finds string len place (bParseAny string len place depth) := by
  intro pos v pos' h
  obtain ⟨t, hs, hr, hpos, hnear, hv⟩ := bParseAny_text depth pos v pos' h
  exact ⟨t, hs, hr, hpos, hnear.le hsent, hv⟩

/-- **The parser returns a value for exactly the spelled texts**, which it takes whole. -/
theorem bencodeParse_eq_ok_iff (hsent : Sentinel string len) {v : BencodeValue} {pos' : Nat} :
    bencodeParse string len place = .ok v pos' ↔
      ∃ t, Spelled t ∧ Reads string 0 t.bytes ∧ pos' = t.bytes.length ∧ (pos' : Int) ≤ len ∧
        v = t.value place 0 := by
  constructor
  · intro h
    obtain ⟨t, hs, hr, hpos, hle, hv⟩ := bParseAny_sound hsent _ 0 v pos' h
    exact ⟨t, hs, hr, by omega, hle, hv⟩
  · rintro ⟨t, hs, hr, rfl, hle, rfl⟩
    have := @bParseAny_complete string len place t hs (len.toNat + 1) (by omega) 0 hr
      (by push_cast; omega)
    rwa [Nat.zero_add] at this

end Flood.Bencode
