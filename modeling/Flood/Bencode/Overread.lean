import Flood.Bencode.Grammar

/-!
# Reads behind the buffer

The parser looks at a byte before it compares the cursor with `len` at two places: behind the first
digit of a length, and behind the minus of an integer.

* `Overread bs` — the text `bs` ends at one of these places, at whatever depth.
* `outOfBounds_overread` — nothing else makes the parser read behind the buffer.
* `StopsIn` — where a text ends, the parser stops; so it does in a list or a dictionary around it.
* `Overread.stopsIn` — such a text does, and the byte that stands there decides what is returned.
* `bParseAny_mono` — where all reads are inside, the result depends on the buffer only.
* `bencodeParse_inside_iff` — the parser stays inside the buffer iff the text is none of these.
-/

namespace Flood.Bencode

open Flood.Lib Flood.Hashtable

/-- A text that ends right behind the first digit of a length or right behind the minus of an
integer, the lists and dictionaries around it still open. -/
inductive Overread : List UInt8 → Prop
  /-- The first digit of a length. -/
  | digit {d : UInt8} (hd : isDigit d = true) : Overread [d]
  /-- The minus of an integer. -/
  | minus : Overread [105, 45]
  /-- In an item of a list. -/
  | item {items : List Syn} {rest : List UInt8} (hitems : ∀ t ∈ items, Spelled t)
      (h : Overread rest) : Overread (108 :: (bytesItems items ++ rest))
  /-- In a key of a dictionary. -/
  | key {pairs : List (StrText × Syn)} {rest : List UInt8} (hkeys : ∀ p ∈ pairs, p.1.KeySpelled)
      (hvals : ∀ p ∈ pairs, Spelled p.2) (h : Overread rest) :
      Overread (100 :: (bytesPairs pairs ++ rest))
  /-- In a value of a dictionary. That its key is a string has not been checked yet. -/
  | value {pairs : List (StrText × Syn)} {t : Syn} {rest : List UInt8}
      (hkeys : ∀ p ∈ pairs, p.1.KeySpelled) (hvals : ∀ p ∈ pairs, Spelled p.2) (ht : Spelled t)
      (h : Overread rest) : Overread (100 :: (bytesPairs pairs ++ (t.bytes ++ rest)))

variable {string string' : Nat → Option UInt8} {len : Int} {place : Nat → Addr}

/-! ## Where reads go astray -/

/-- The function does not return. -/
def Stop.Fault : Stop → Prop
  | outOfBounds | nullDeref => True
  | code _ | outOfFuel => False

theorem fault_outOfBounds : Stop.outOfBounds.Fault := trivial

theorem fault_nullDeref : Stop.nullDeref.Fault := trivial

/-- What behind a passed check ends in a fault, is inside the buffer. -/
theorem eofCheck_eq_fault_iff {α : Type} {pos pos' : Nat} {k : Result α} {why : Stop}
    (hwhy : why.Fault) :
    eofCheck len pos k = .stop why pos' ↔ (pos : Int) < len ∧ k = .stop why pos' := by
  unfold eofCheck
  split_ifs with h
  · refine iff_of_false (fun heq => ?_) fun hin => not_lt.mpr h hin.1
    obtain ⟨rfl, -⟩ := Result.stop.inj heq
    exact hwhy
  · exact (and_iff_right (not_le.mp h)).symm

/-- A byte that is not read is not there. -/
theorem readByte_eq_outOfBounds_iff {pos pos' : Nat} :
    readByte string pos = .stop .outOfBounds pos' ↔ string pos = none ∧ pos' = pos := by
  unfold readByte
  cases string pos with
  | none => simp [eq_comm]
  | some c => simp

/-- All bytes of the buffer can be read. -/
def Readable (string : Nat → Option UInt8) (len : Int) : Prop := ∀ i, string i = none → len ≤ i

/-- The digit loop goes astray at its first byte only. -/
theorem digitLoop_outOfBounds (hmem : Readable string len) {fuel pos pos' : Nat} {n : Int}
    (h : digitLoop string len fuel n pos = .stop .outOfBounds pos') : len ≤ pos := by
  induction fuel generalizing n pos with
  | zero => simp [digitLoop] at h
  | succ fuel ih =>
      rw [digitLoop, Result.bind_eq_stop_iff] at h
      rcases h with h | ⟨c, p, hread, h⟩
      · exact hmem pos (readByte_eq_outOfBounds_iff.mp h).1
      · obtain ⟨_, rfl⟩ := readByte_eq_ok_iff.mp hread
        split_ifs at h with hd
        rw [eofCheck_eq_fault_iff fault_outOfBounds] at h
        have := ih h.2
        omega

/-- The copy loop does not go astray. -/
theorem copyLoop_ne_outOfBounds (hmem : Readable string len) {block : Bool} {n pos pos' : Nat} :
    copyLoop string len block n pos ≠ .stop .outOfBounds pos' := by
  induction n generalizing pos with
  | zero => simp [copyLoop]
  | succ n ih =>
      intro h
      rw [copyLoop, eofCheck_eq_fault_iff fault_outOfBounds, Result.bind_eq_stop_iff] at h
      obtain ⟨hlt, h | ⟨c, p, hread, h⟩⟩ := h
      · have := hmem pos (readByte_eq_outOfBounds_iff.mp h).1
        omega
      · by_cases hblock : block = true
        · rw [if_pos hblock, Result.bind_eq_stop_iff] at h
          rcases h with h | ⟨bytes, q, _, h⟩
          · exact ih h
          · exact absurd h (by simp)
        · rw [if_neg hblock] at h
          exact absurd h (by simp)

/-- A string goes astray behind its first digit. -/
theorem bParseString_outOfBounds (hmem : Readable string len) {first : UInt8} {pos pos' : Nat}
    {start : Int} (h : bParseString string len place start first pos = .stop .outOfBounds pos') :
    len ≤ pos := by
  rw [bParseString, Result.bind_eq_stop_iff] at h
  rcases h with h | ⟨n, p, hloop, h⟩
  · exact digitLoop_outOfBounds hmem h
  · obtain ⟨ds, c, _, hr, _, rfl, _, _⟩ := digitLoop_sound hloop
    rw [readByte_of_eq hr.next, Result.bind_ok, ite_eq_iff] at h
    rcases h with ⟨_, h⟩ | ⟨_, h⟩
    · exact absurd h (by simp)
    · rw [Result.bind_eq_stop_iff] at h
      rcases h with h | ⟨bytes, q, _, h⟩
      · exact absurd h (copyLoop_ne_outOfBounds hmem)
      · exact absurd h (by simp)

/-- An integer goes astray behind its minus. -/
theorem bParseInt_outOfBounds (hmem : Readable string len) {pos pos' : Nat} {start : Int}
    (h : bParseInt string len start pos = .stop .outOfBounds pos') :
    (pos : Int) < len ∧ string pos = some 45 ∧ len ≤ (pos + 1 : Nat) := by
  rw [bParseInt, eofCheck_eq_fault_iff fault_outOfBounds, Result.bind_eq_stop_iff] at h
  obtain ⟨hlt, h | ⟨sign, p, hread, h⟩⟩ := h
  · have := hmem pos (readByte_eq_outOfBounds_iff.mp h).1
    omega
  · obtain ⟨hsign, rfl⟩ := readByte_eq_ok_iff.mp hread
    rw [Result.bind_eq_stop_iff] at h
    rcases h with h | ⟨n, q, hloop, h⟩
    · have hastray := digitLoop_outOfBounds hmem h
      by_cases hminus : sign = 45
      · rw [if_pos hminus] at hastray
        exact ⟨hlt, hminus ▸ hsign, hastray⟩
      · rw [if_neg hminus] at hastray
        omega
    · obtain ⟨ds, c, _, hr, _, rfl, _, _⟩ := digitLoop_sound hloop
      rw [readByte_of_eq hr.next, Result.bind_ok, ite_eq_iff] at h
      rcases h with ⟨_, h⟩ | ⟨_, h⟩
      · exact absurd h (by simp)
      · exact absurd h (by simp)

/-- Where `any` goes astray, the rest of the buffer is one of these texts. -/
def Strays (string : Nat → Option UInt8) (len : Int) (any : Nat → Result BencodeValue) : Prop :=
  ∀ pos pos', any pos = .stop .outOfBounds pos' →
    ∃ rest, Overread rest ∧ Reads string pos rest ∧ (pos + rest.length : Int) = len

/-- A list loop that ends in a fault does so in an item, or where a byte cannot be read. -/
theorem listLoop_fault {any : Nat → Result BencodeValue} (hfinds : Finds string len place any)
    {why : Stop} (hwhy : why.Fault) {fuel pos pos' : Nat} (hlt : (pos : Int) < len)
    (h : listLoop string len any fuel pos = .stop why pos') :
    ∃ items, (∀ t ∈ items, Spelled t) ∧ Reads string pos (bytesItems items) ∧
      (pos + (bytesItems items).length : Int) < len ∧
      (readByte string (pos + (bytesItems items).length) = .stop why pos' ∨
        any (pos + (bytesItems items).length) = .stop why pos') := by
  induction fuel generalizing pos with
  | zero =>
      obtain ⟨rfl, -⟩ := Result.stop.inj h
      exact hwhy.elim
  | succ fuel ih =>
      have hnone : ∀ t ∈ ([] : List Syn), Spelled t := fun t ht => absurd ht List.not_mem_nil
      have hend : (pos + (bytesItems []).length : Int) < len := by simpa [bytesItems] using hlt
      rw [listLoop, Result.bind_eq_stop_iff] at h
      rcases h with h | ⟨c, p, hread, h⟩
      · exact ⟨[], hnone, reads_nil pos, hend, .inl h⟩
      · obtain ⟨_, rfl⟩ := readByte_eq_ok_iff.mp hread
        split_ifs at h with hclose
        rw [Result.bind_eq_stop_iff] at h
        rcases h with h | ⟨elem, q, helem, h⟩
        · exact ⟨[], hnone, reads_nil p, hend, .inr h⟩
        · obtain ⟨t, hs, hr, rfl, _, _⟩ := hfinds p elem q helem
          rw [eofCheck_eq_fault_iff hwhy, Result.bind_eq_stop_iff] at h
          obtain ⟨hlt', h | ⟨elems, q', _, h⟩⟩ := h
          · obtain ⟨items, hitems, hr', hin, hfault⟩ := ih hlt' h
            rw [Nat.add_assoc, ← List.length_append] at hfault
            refine ⟨t :: items, List.forall_mem_cons.mpr ⟨hs, hitems⟩, ?_, ?_, hfault⟩
            · exact reads_append.mpr ⟨hr, hr'⟩
            · rw [bytesItems, List.length_append]
              push_cast at hin ⊢
              omega
          · exact absurd h (by simp)

/-- A dictionary loop that ends in a fault does so in a key, in a value, where a byte cannot be read, or
where the pointer of a key is no block. -/
theorem dictLoop_fault {any : Nat → Result BencodeValue} (hfinds : Finds string len place any)
    {why : Stop} (hwhy : why.Fault) {fuel pos pos' : Nat} {dict : BencodeDict}
    (hlt : (pos : Int) < len) (h : dictLoop string len any fuel dict pos = .stop why pos') :
    ∃ pairs : List (StrText × Syn), (∀ p ∈ pairs, p.1.KeySpelled) ∧ (∀ p ∈ pairs, Spelled p.2) ∧
      Reads string pos (bytesPairs pairs) ∧ (pos + (bytesPairs pairs).length : Int) < len ∧
      (readByte string (pos + (bytesPairs pairs).length) = .stop why pos' ∨
        any (pos + (bytesPairs pairs).length) = .stop why pos' ∨
        (∃ t, Spelled t ∧ Reads string (pos + (bytesPairs pairs).length) t.bytes ∧
          any (pos + (bytesPairs pairs).length + t.bytes.length) = .stop why pos') ∨
        why = .nullDeref ∧ ∃ (s : StrText) (t : Syn), s.Spelled ∧ s.len < -1 ∧ Spelled t ∧
          Reads string (pos + (bytesPairs pairs).length) (s.bytes ++ t.bytes) ∧
          (pos + (bytesPairs pairs).length + (s.bytes ++ t.bytes).length : Int) < len) := by
  induction fuel generalizing pos dict with
  | zero =>
      obtain ⟨rfl, -⟩ := Result.stop.inj h
      exact hwhy.elim
  | succ fuel ih =>
      have hkeys : ∀ p ∈ ([] : List (StrText × Syn)), p.1.KeySpelled :=
        fun p hp => absurd hp List.not_mem_nil
      have hvals : ∀ p ∈ ([] : List (StrText × Syn)), Spelled p.2 :=
        fun p hp => absurd hp List.not_mem_nil
      have hend : (pos + (bytesPairs []).length : Int) < len := by simpa [bytesPairs] using hlt
      rw [dictLoop, Result.bind_eq_stop_iff] at h
      rcases h with h | ⟨c, p, hread, h⟩
      · exact ⟨[], hkeys, hvals, reads_nil pos, hend, .inl h⟩
      obtain ⟨_, rfl⟩ := readByte_eq_ok_iff.mp hread
      rw [ite_eq_iff] at h
      rcases h with ⟨_, h⟩ | ⟨_, h⟩
      · exact absurd h (by simp)
      rw [Result.bind_eq_stop_iff] at h
      rcases h with h | ⟨key, q, hkey, h⟩
      · exact ⟨[], hkeys, hvals, reads_nil p, hend, .inr (.inl h)⟩
      obtain ⟨tk, hsk, hrk, rfl, _, rfl⟩ := hfinds p key q hkey
      rw [eofCheck_eq_fault_iff hwhy, Result.bind_eq_stop_iff] at h
      obtain ⟨_, h | ⟨val, q, hval, h⟩⟩ := h
      · exact ⟨[], hkeys, hvals, reads_nil p, hend, .inr (.inr (.inl ⟨tk, hsk, hrk, h⟩))⟩
      obtain ⟨t, hs, hr, rfl, _, rfl⟩ := hfinds _ val q hval
      rw [eofCheck_eq_fault_iff hwhy] at h
      obtain ⟨hlt', h⟩ := h
      have hcode : ∀ c p', (Result.stop (.code c) p' : Result BencodeDict) ≠ .stop why pos' := by
        intro c p' heq
        obtain ⟨rfl, -⟩ := Result.stop.inj heq
        exact hwhy
      cases hsk with
      | @string s hspelled =>
          rw [Syn.value, StrText.value] at h
          by_cases halloc : allocated s.len = true
          · rw [if_pos halloc] at h
            have hks : s.KeySpelled := ⟨hspelled, hspelled.allocated_iff.mp halloc⟩
            obtain ⟨pairs, hkeys, hvals, hr', hin, hfault⟩ := ih hlt' h
            have hpos : p + (Syn.string s).bytes.length + t.bytes.length + (bytesPairs pairs).length =
                p + (bytesPairs ((s, t) :: pairs)).length := by
              rw [bytesPairs, List.length_append, List.length_append, Syn.bytes]
              omega
            rw [hpos] at hfault
            refine ⟨(s, t) :: pairs, List.forall_mem_cons.mpr ⟨hks, hkeys⟩,
              List.forall_mem_cons.mpr ⟨hs, hvals⟩, ?_, ?_, ?_⟩
            · rw [bytesPairs, List.append_assoc]
              exact reads_append.mpr ⟨hrk, reads_append.mpr ⟨hr, hr'⟩⟩
            · rw [← Nat.cast_add, ← hpos]
              exact_mod_cast hin
            · rw [← Nat.cast_add, hpos] at hfault
              exact_mod_cast hfault
          · rw [if_neg halloc] at h
            obtain ⟨rfl, -⟩ := Result.stop.inj h
            rw [hspelled.allocated_iff, not_le] at halloc
            refine ⟨[], hkeys, hvals, reads_nil p, hend, .inr (.inr (.inr ⟨rfl, s, t, hspelled, halloc,
              hs, reads_append.mpr ⟨hrk, hr⟩, ?_⟩))⟩
            rw [List.length_append]
            rw [Syn.bytes] at hlt'
            push_cast at hlt' ⊢
            simpa [bytesPairs, add_assoc] using hlt'
      | integer _ => exact absurd h (hcode _ _)
      | list _ => exact absurd h (hcode _ _)
      | dict _ _ => exact absurd h (hcode _ _)

/-- The list loop goes astray in an item. -/
theorem listLoop_outOfBounds (hmem : Readable string len) {any : Nat → Result BencodeValue}
    (hfinds : Finds string len place any) (hstrays : Strays string len any) {fuel pos pos' : Nat}
    (hlt : (pos : Int) < len) (h : listLoop string len any fuel pos = .stop .outOfBounds pos') :
    ∃ items rest, (∀ t ∈ items, Spelled t) ∧ Overread rest ∧
      Reads string pos (bytesItems items ++ rest) ∧
      (pos + (bytesItems items ++ rest).length : Int) = len := by
  obtain ⟨items, hitems, hr, hin, hread | hany⟩ := listLoop_fault hfinds fault_outOfBounds hlt h
  · have hbehind := hmem _ (readByte_eq_outOfBounds_iff.mp hread).1
    push_cast at hbehind
    omega
  · obtain ⟨rest, hover, hr', hlength⟩ := hstrays _ pos' hany
    refine ⟨items, rest, hitems, hover, reads_append.mpr ⟨hr, hr'⟩, ?_⟩
    rw [List.length_append]
    push_cast at hlength ⊢
    omega

/-- The dictionary loop goes astray in a key or in a value. -/
theorem dictLoop_outOfBounds (hmem : Readable string len) {any : Nat → Result BencodeValue}
    (hfinds : Finds string len place any) (hstrays : Strays string len any) {fuel pos pos' : Nat}
    {dict : BencodeDict} (hlt : (pos : Int) < len)
    (h : dictLoop string len any fuel dict pos = .stop .outOfBounds pos') :
    ∃ rest, Overread (100 :: rest) ∧ Reads string pos rest ∧ (pos + rest.length : Int) = len := by
  obtain ⟨pairs, hkeys, hvals, hr, hin, hread | hany | ⟨t, ht, hrt, hany⟩ | ⟨hnull, -⟩⟩ :=
    dictLoop_fault hfinds fault_outOfBounds hlt h
  · have hbehind := hmem _ (readByte_eq_outOfBounds_iff.mp hread).1
    push_cast at hbehind
    omega
  · obtain ⟨rest, hover, hr', hlength⟩ := hstrays _ pos' hany
    refine ⟨_, .key hkeys hvals hover, reads_append.mpr ⟨hr, hr'⟩, ?_⟩
    rw [List.length_append]
    push_cast at hlength ⊢
    omega
  · obtain ⟨rest, hover, hr', hlength⟩ := hstrays _ pos' hany
    refine ⟨_, .value hkeys hvals ht hover,
      reads_append.mpr ⟨hr, reads_append.mpr ⟨hrt, hr'⟩⟩, ?_⟩
    rw [List.length_append, List.length_append]
    push_cast at hlength ⊢
    omega
  · cases hnull

/-- **Nothing else makes the parser read behind the buffer.** -/
theorem outOfBounds_overread (hmem : Readable string len) (hsent : Sentinel string len)
    (depth : Nat) : Strays string len (bParseAny string len place depth) := by
  induction depth with
  | zero =>
      intro pos pos' h
      simp [bParseAny] at h
  | succ depth ih =>
      intro pos pos' h
      have hfinds := @bParseAny_sound string len place hsent depth
      rw [bParseAny, eofCheck_eq_fault_iff fault_outOfBounds, Result.bind_eq_stop_iff] at h
      obtain ⟨hlt, h | ⟨c, p, hread, h⟩⟩ := h
      · have := hmem pos (readByte_eq_outOfBounds_iff.mp h).1
        omega
      · obtain ⟨hc, rfl⟩ := readByte_eq_ok_iff.mp hread
        split_ifs at h with hi hl hd hdigit
        · obtain ⟨hlt', hminus, hastray⟩ := bParseInt_outOfBounds hmem h
          push_cast at hlt' hastray
          exact ⟨[105, 45], .minus, ⟨hi ▸ hc, hminus, trivial⟩,
            by simp only [List.length_cons, List.length_nil]; omega⟩
        · rw [bParseList, eofCheck_eq_fault_iff fault_outOfBounds, Result.bind_eq_stop_iff] at h
          obtain ⟨hlt', h | ⟨elems, q, _, h⟩⟩ := h
          · obtain ⟨items, rest, hitems, hover, hr, hlength⟩ :=
              listLoop_outOfBounds hmem hfinds ih hlt' h
            refine ⟨_, .item hitems hover, ⟨hl ▸ hc, hr⟩, ?_⟩
            rw [List.length_cons]
            push_cast at hlength ⊢
            omega
          · exact absurd h (by simp)
        · rw [bParseDict, eofCheck_eq_fault_iff fault_outOfBounds, Result.bind_eq_stop_iff] at h
          obtain ⟨hlt', h | ⟨elems, q, _, h⟩⟩ := h
          · obtain ⟨rest, hover, hr, hlength⟩ := dictLoop_outOfBounds hmem hfinds ih hlt' h
            refine ⟨_, hover, ⟨hd ▸ hc, hr⟩, ?_⟩
            rw [List.length_cons]
            push_cast at hlength ⊢
            omega
          · exact absurd h (by simp)
        · have := bParseString_outOfBounds hmem h
          push_cast at this
          exact ⟨[c], .digit hdigit, ⟨hc, trivial⟩, by rw [List.length_singleton]; push_cast; omega⟩
        · exact absurd h (by simp)

/-! ## What such a text makes the parser do -/

/-- How a run ends that looks for a digit behind the buffer and finds `c`. -/
def behind : Option UInt8 → Stop
  | none => .outOfBounds
  | some c => if isDigit c then .code (-1) else .code (-2)

/-- The digit loop behind the buffer. -/
theorem digitLoop_end {n : Int} {pos : Nat} (hpos : (pos : Int) = len) :
    digitLoop string len (len.toNat + 1) n pos =
      match string pos with
      | none => .stop .outOfBounds pos
      | some c => if isDigit c then .stop (.code (-1)) (pos + 1) else .ok n pos := by
  rw [digitLoop, readByte]
  cases string pos with
  | none => rfl
  | some c =>
      have heof : ∀ k : Result Int, eofCheck len (pos + 1) k = .stop (.code (-1)) (pos + 1) :=
        fun k => if_pos (by push_cast; omega)
      simp only [Result.bind_ok, heof]

/-- A text that overreads has a first byte, and it is not an `e`. -/
theorem Overread.head {rest : List UInt8} (h : Overread rest) :
    ∃ c bs, rest = c :: bs ∧ c ≠ 101 := by
  cases h with
  | @digit d hd =>
      refine ⟨d, [], rfl, ?_⟩
      rintro rfl
      exact absurd hd (by decide)
  | minus => exact ⟨105, [45], rfl, by decide⟩
  | item hitems h => exact ⟨108, _, rfl, by decide⟩
  | key hkeys hvals h => exact ⟨100, _, rfl, by decide⟩
  | value hkeys hvals ht h => exact ⟨100, _, rfl, by decide⟩

/-- The list loop stops where an item does. -/
theorem listLoop_stop {any : Nat → Result BencodeValue} {fuel pos pos' : Nat} {c : UInt8} {why : Stop}
    (hread : string pos = some c) (hne : c ≠ 101) (h : any pos = .stop why pos') :
    listLoop string len any (fuel + 1) pos = .stop why pos' := by
  rw [listLoop, readByte_of_eq hread, Result.bind_ok, if_neg hne, h, Result.bind_stop]

/-- The dictionary loop stops where a key does. -/
theorem dictLoop_stop_key {any : Nat → Result BencodeValue} {fuel pos pos' : Nat} {c : UInt8}
    {why : Stop} {dict : BencodeDict} (hread : string pos = some c) (hne : c ≠ 101)
    (h : any pos = .stop why pos') :
    dictLoop string len any (fuel + 1) dict pos = .stop why pos' := by
  rw [dictLoop, readByte_of_eq hread, Result.bind_ok, if_neg hne, h, Result.bind_stop]

/-- The dictionary loop stops where a value does. -/
theorem dictLoop_stop_value {any : Nat → Result BencodeValue} {fuel pos mid pos' : Nat} {c : UInt8}
    {why : Stop} {dict : BencodeDict} {key : BencodeValue} (hread : string pos = some c)
    (hne : c ≠ 101) (hkey : any pos = .ok key mid) (hlt : (mid : Int) < len)
    (h : any mid = .stop why pos') :
    dictLoop string len any (fuel + 1) dict pos = .stop why pos' := by
  rw [dictLoop, readByte_of_eq hread, Result.bind_ok, if_neg hne, hkey, Result.bind_ok,
    eofCheck_of_lt hlt, h, Result.bind_stop]

/-- A dictionary that is not all there is parsed up to where its whole pairs end. -/
theorem bParseAny_pairs {pairs : List (StrText × Syn)} (hkeys : ∀ p ∈ pairs, p.1.KeySpelled)
    (hvals : ∀ p ∈ pairs, Spelled p.2) {depth pos : Nat} (hdepth : (bytesPairs pairs).length ≤ depth)
    (hc : string pos = some 100) (hr : Reads string (pos + 1) (bytesPairs pairs))
    (hlen : (pos + 1 + (bytesPairs pairs).length : Int) < len) :
    ∃ fuel k, bParseAny string len place (depth + 1) pos =
      (dictLoop string len (bParseAny string len place depth) (fuel + 1)
        (tableOf place (pos + 1) pairs Table.init) (pos + 1 + (bytesPairs pairs).length)).bind k := by
  have hcount := length_le_bytesPairs pairs
  obtain ⟨fuel, hfuel⟩ : ∃ k, len.toNat + 1 = pairs.length + (k + 1) :=
    ⟨len.toNat - pairs.length, by omega⟩
  have hloop := @dictLoop_pairs string len place (bParseAny string len place depth) (fuel + 1)
    (pos + 1) pairs Table.init (parses_keys hkeys hdepth) (parses_values hvals hdepth) hkeys hr
    (by push_cast; omega)
  have hdict := @bParseAny_of_d string len place depth pos hc (by omega)
  rw [bParseDict, eofCheck_of_lt (by push_cast; omega), hfuel, hloop] at hdict
  exact ⟨fuel, _, hdict⟩

/-- Where the text ends at `stop`, the parser stops. -/
def StopsIn (string : Nat → Option UInt8) (len : Int) (place : Nat → Addr) (why : Stop) (stop : Nat)
    (text : List UInt8) : Prop :=
  ∀ depth pos, text.length ≤ depth → Reads string pos text → pos + text.length = stop →
    ∃ pos', bParseAny string len place depth pos = .stop why pos'

namespace StopsIn

variable {why : Stop} {stop : Nat} {rest : List UInt8} {items : List Syn} {t : Syn}
  {pairs : List (StrText × Syn)}

/-- A list stops where an item does. -/
theorem item (h : StopsIn string len place why stop rest) (hitems : ∀ t ∈ items, Spelled t)
    (hhead : ∃ c bs, rest = c :: bs ∧ c ≠ 101) (hle : (stop : Int) ≤ len) :
    StopsIn string len place why stop (108 :: (bytesItems items ++ rest)) := by
  intro depth pos hdepth hr hstop
  rw [List.length_cons, List.length_append] at hdepth hstop
  obtain ⟨depth, rfl⟩ : ∃ k, depth = k + 1 := ⟨depth - 1, by omega⟩
  obtain ⟨hc, hr⟩ := hr
  obtain ⟨hri, hrr⟩ := reads_append.mp hr
  obtain ⟨pos', hrun⟩ := h depth _ (by omega) hrr (by omega)
  obtain ⟨c, bs, rfl, hne⟩ := hhead
  rw [List.length_cons] at hstop
  have hcount := length_le_bytesItems items
  obtain ⟨fuel, hfuel⟩ : ∃ k, len.toNat + 1 = items.length + (k + 1) :=
    ⟨len.toNat - items.length, by omega⟩
  have hloop := @listLoop_items string len place (bParseAny string len place depth) (fuel + 1)
    (pos + 1) items (parses_items hitems (by omega)) hitems hri (by push_cast; omega)
  refine ⟨pos', ?_⟩
  rw [bParseAny_of_l hc (by omega), bParseList, eofCheck_of_lt (by push_cast; omega), hfuel, hloop,
    listLoop_stop hrr.1 hne hrun]
  rfl

/-- A dictionary stops where a key does. -/
theorem key (h : StopsIn string len place why stop rest) (hkeys : ∀ p ∈ pairs, p.1.KeySpelled)
    (hvals : ∀ p ∈ pairs, Spelled p.2) (hhead : ∃ c bs, rest = c :: bs ∧ c ≠ 101)
    (hle : (stop : Int) ≤ len) :
    StopsIn string len place why stop (100 :: (bytesPairs pairs ++ rest)) := by
  intro depth pos hdepth hr hstop
  rw [List.length_cons, List.length_append] at hdepth hstop
  obtain ⟨depth, rfl⟩ : ∃ k, depth = k + 1 := ⟨depth - 1, by omega⟩
  obtain ⟨hc, hr⟩ := hr
  obtain ⟨hrp, hrr⟩ := reads_append.mp hr
  obtain ⟨pos', hrun⟩ := h depth _ (by omega) hrr (by omega)
  obtain ⟨c, bs, rfl, hne⟩ := hhead
  rw [List.length_cons] at hstop
  obtain ⟨fuel, k, hdict⟩ := @bParseAny_pairs string len place pairs hkeys hvals depth pos (by omega)
    hc hrp (by omega)
  refine ⟨pos', ?_⟩
  rwa [dictLoop_stop_key hrr.1 hne hrun] at hdict

/-- A dictionary stops where a value does. -/
theorem value (h : StopsIn string len place why stop rest) (hkeys : ∀ p ∈ pairs, p.1.KeySpelled)
    (hvals : ∀ p ∈ pairs, Spelled p.2) (ht : Spelled t) (hhead : ∃ c bs, rest = c :: bs ∧ c ≠ 101)
    (hle : (stop : Int) ≤ len) :
    StopsIn string len place why stop (100 :: (bytesPairs pairs ++ (t.bytes ++ rest))) := by
  intro depth pos hdepth hr hstop
  rw [List.length_cons, List.length_append, List.length_append] at hdepth hstop
  obtain ⟨depth, rfl⟩ : ∃ k, depth = k + 1 := ⟨depth - 1, by omega⟩
  obtain ⟨hc, hr⟩ := hr
  obtain ⟨hrp, hr⟩ := reads_append.mp hr
  obtain ⟨hrt, hrr⟩ := reads_append.mp hr
  obtain ⟨pos', hrun⟩ := h depth _ (by omega) hrr (by omega)
  obtain ⟨c, bs, rfl, -⟩ := hhead
  rw [List.length_cons] at hstop
  obtain ⟨d, ds, hbytes⟩ := List.exists_cons_of_ne_nil t.bytes_ne_nil
  have hread : string (pos + 1 + (bytesPairs pairs).length) = some d := by
    rw [hbytes] at hrt
    exact hrt.1
  have hkey := @bParseAny_complete string len place t ht depth (by omega) _ hrt (by push_cast; omega)
  obtain ⟨fuel, k, hdict⟩ := @bParseAny_pairs string len place pairs hkeys hvals depth pos (by omega)
    hc hrp (by omega)
  refine ⟨pos', ?_⟩
  rwa [dictLoop_stop_value hread (ht.head_ne hbytes) hkey (by push_cast; omega) hrun] at hdict

end StopsIn

/-- **Such a text makes the parser look behind the buffer.** What it finds there decides how the run
ends: with a fault, with `-1` for a digit, with `-2` for any other byte but `:` and `e`. -/
theorem Overread.stopsIn {rest : List UInt8} (h : Overread rest) {stop : Nat} (hlen : (stop : Int) = len)
    (hend : ∀ c, string stop = some c → c ≠ 58 ∧ c ≠ 101) :
    StopsIn string len place (behind (string stop)) stop rest := by
  induction h with
  | @digit d hd =>
      intro depth pos hdepth hr hstop
      rw [List.length_singleton] at hdepth hstop
      subst hstop
      obtain ⟨depth, rfl⟩ : ∃ k, depth = k + 1 := ⟨depth - 1, by omega⟩
      rw [bParseAny_of_digit hr.1 hd (by omega), bParseString, digitLoop_end (by exact_mod_cast hlen)]
      cases hbyte : string (pos + 1) with
      | none => exact ⟨pos + 1, rfl⟩
      | some c =>
          by_cases hc : isDigit c = true
          · exact ⟨pos + 2, by simp [behind, hc]⟩
          · exact ⟨pos + 1, by simp [behind, hc, readByte, hbyte, (hend c hbyte).1]⟩
  | minus =>
      intro depth pos hdepth hr hstop
      rw [List.length_cons, List.length_singleton] at hdepth hstop
      subst hstop
      obtain ⟨depth, rfl⟩ : ∃ k, depth = k + 1 := ⟨depth - 1, by omega⟩
      rw [bParseAny_of_i hr.1 (by omega), bParseInt, eofCheck_of_lt (by omega),
        readByte_of_eq hr.2.1, Result.bind_ok, if_pos rfl, digitLoop_end (by exact_mod_cast hlen)]
      cases hbyte : string (pos + 2) with
      | none => exact ⟨pos + 2, by simp [behind]⟩
      | some c =>
          by_cases hc : isDigit c = true
          · exact ⟨pos + 3, by simp [behind, hc]⟩
          · exact ⟨pos + 2, by simp [behind, hc, readByte, hbyte, (hend c hbyte).2]⟩
  | item hitems h ih => exact ih.item hitems h.head hlen.le
  | key hkeys hvals h ih => exact ih.key hkeys hvals h.head hlen.le
  | value hkeys hvals ht h ih => exact ih.value hkeys hvals ht h.head hlen.le

/-! ## More memory -/

/-- `y` is `x`, or `x` is a fault. -/
def Result.Le {α : Type} (x y : Result α) : Prop := (∃ pos, x = .stop .outOfBounds pos) ∨ x = y

namespace Result.Le

variable {α β : Type} {x y : Result α}

theorem refl (x : Result α) : Le x x := .inr rfl

/-- A fault in the first part is a fault. -/
theorem bind {f g : α → Nat → Result β} (h : Le x y) (hfg : ∀ a pos, Le (f a pos) (g a pos)) :
    Le (x.bind f) (y.bind g) := by
  rcases h with ⟨pos, rfl⟩ | rfl
  · exact .inl ⟨pos, rfl⟩
  · cases x with
    | ok a pos => exact hfg a pos
    | stop why pos => exact refl _

/-- The check does not look at the memory. -/
theorem eofCheck {pos : Nat} (h : Le x y) : Le (eofCheck len pos x) (eofCheck len pos y) := by
  unfold Bencode.eofCheck
  split_ifs
  · exact refl _
  · exact h

/-- A branch that does not look at the memory. -/
theorem ite {x' y' : Result α} {p : Prop} [Decidable p] (h : Le x y) (h' : Le x' y') :
    Le (if p then x else x') (if p then y else y') := by
  split_ifs
  · exact h
  · exact h'

end Result.Le

/-- The second memory holds what the first holds. -/
def Extends (string string' : Nat → Option UInt8) : Prop :=
  ∀ i c, string i = some c → string' i = some c

section Mono

variable (h : Extends string string')

include h

theorem readByte_mono (pos : Nat) : (readByte string pos).Le (readByte string' pos) := by
  cases hbyte : string pos with
  | none => exact .inl ⟨pos, by rw [readByte, hbyte]⟩
  | some c => exact .inr (by rw [readByte_of_eq hbyte, readByte_of_eq (h pos c hbyte)])

theorem digitLoop_mono (fuel : Nat) (n : Int) (pos : Nat) :
    (digitLoop string len fuel n pos).Le (digitLoop string' len fuel n pos) := by
  induction fuel generalizing n pos with
  | zero => exact .refl _
  | succ fuel ih => exact (readByte_mono h pos).bind fun c pos => .ite (.eofCheck (ih _ _)) (.refl _)

theorem copyLoop_mono (block : Bool) (n pos : Nat) :
    (copyLoop string len block n pos).Le (copyLoop string' len block n pos) := by
  induction n generalizing pos with
  | zero => exact .refl _
  | succ n ih =>
      exact .eofCheck <| (readByte_mono h pos).bind fun c pos =>
        .ite ((ih _).bind fun bytes pos => .refl _) (.refl _)

theorem bParseString_mono (start : Int) (first : UInt8) (pos : Nat) :
    (bParseString string len place start first pos).Le
      (bParseString string' len place start first pos) :=
  (digitLoop_mono h _ _ pos).bind fun _ pos => (readByte_mono h pos).bind fun _ _ =>
    .ite (.refl _) ((copyLoop_mono h _ _ _).bind fun _ _ => .refl _)

theorem bParseInt_mono (start : Int) (pos : Nat) :
    (bParseInt string len start pos).Le (bParseInt string' len start pos) :=
  .eofCheck <| (readByte_mono h pos).bind fun _ _ => (digitLoop_mono h _ _ _).bind fun _ pos =>
    (readByte_mono h pos).bind fun _ _ => .ite (.refl _) (.refl _)

theorem listLoop_mono {any any' : Nat → Result BencodeValue} (hany : ∀ pos, (any pos).Le (any' pos))
    (fuel pos : Nat) : (listLoop string len any fuel pos).Le (listLoop string' len any' fuel pos) := by
  induction fuel generalizing pos with
  | zero => exact .refl _
  | succ fuel ih =>
      exact (readByte_mono h pos).bind fun c pos => .ite (.refl _) <|
        (hany pos).bind fun elem pos => .eofCheck <| (ih pos).bind fun elems pos => .refl _

theorem dictLoop_mono {any any' : Nat → Result BencodeValue} (hany : ∀ pos, (any pos).Le (any' pos))
    (fuel : Nat) (dict : BencodeDict) (pos : Nat) :
    (dictLoop string len any fuel dict pos).Le (dictLoop string' len any' fuel dict pos) := by
  induction fuel generalizing dict pos with
  | zero => exact .refl _
  | succ fuel ih =>
      refine (readByte_mono h pos).bind fun c pos => .ite (.refl _) <|
        (hany pos).bind fun key pos => .eofCheck <| (hany pos).bind fun val pos => .eofCheck ?_
      split
      · exact ih _ pos
      · exact .refl _
      · exact .refl _

/-- **Where all reads are inside, more memory changes nothing.** -/
theorem bParseAny_mono (depth pos : Nat) :
    (bParseAny string len place depth pos).Le (bParseAny string' len place depth pos) := by
  induction depth generalizing pos with
  | zero => exact .refl _
  | succ depth ih =>
      refine .eofCheck <| (readByte_mono h pos).bind fun c pos => ?_
      refine .ite (bParseInt_mono h _ _) (.ite ?_ (.ite ?_ (.ite (bParseString_mono h _ _ _) (.refl _))))
      · exact .eofCheck <| (listLoop_mono h ih _ _).bind fun elems pos => .refl _
      · exact .eofCheck <| (dictLoop_mono h ih _ _ _).bind fun dict pos => .refl _

end Mono

/-! ## Staying inside -/

/-- What a function returns, the cursor left out. -/
def Result.outcome {α : Type} : Result α → Except Stop α
  | ok a _ => .ok a
  | stop why _ => .error why

/-- Other memories that hold the buffer hold more. -/
theorem Extends.of_reads {bs : List UInt8} (h : Reads string 0 bs) : Extends (only bs) string := by
  have hget : ∀ (bs : List UInt8) (pos i : Nat) (c : UInt8), Reads string pos bs →
      bs[i]? = some c → string (pos + i) = some c := by
    intro bs
    induction bs with
    | nil => simp
    | cons b bs ih =>
        intro pos i c hr hi
        cases i with
        | zero => exact hr.1.trans (by simpa using hi)
        | succ i =>
            have := ih (pos + 1) i c hr.2 (by simpa using hi)
            rwa [show pos + (i + 1) = pos + 1 + i by omega]
  intro i c hi
  have := hget bs 0 i c h hi
  rwa [Nat.zero_add] at this

/-- **When the parser stays inside its input.** It reads no byte but those of the buffer, and its
result is the same in every memory that holds the buffer, if and only if the buffer does not end
right behind the first digit of a length or the minus of an integer. -/
theorem bencodeParse_inside_iff {bs : List UInt8} {len : Int} (hlen : bs.length = len.toNat)
    (place : Nat → Addr) :
    ((∀ pos, bencodeParse (only bs) len place ≠ .stop .outOfBounds pos) ∧
      ∀ string string', Reads string 0 bs → Reads string' 0 bs →
        (bencodeParse string len place).outcome = (bencodeParse string' len place).outcome) ↔
      ¬ Overread bs := by
  constructor
  · rintro ⟨hinside, _⟩ hover
    obtain ⟨_, _, hbs, _⟩ := hover.head
    have hpos := List.length_pos_iff.mpr (hbs ▸ List.cons_ne_nil _ _ : bs ≠ [])
    have hend : only bs len.toNat = none := by simp [only, hlen]
    obtain ⟨pos', hstop⟩ := @Overread.stopsIn (only bs) len place bs hover len.toNat (by omega)
      (fun c hc => absurd hc (by simp [hend])) (len.toNat + 1) 0 (by omega) (reads_only bs) (by omega)
    rw [hend] at hstop
    exact hinside pos' hstop
  · intro hover
    have hmem : Readable (only bs) len := by
      intro i hi
      have := List.getElem?_eq_none_iff.mp hi
      omega
    have hsent : Sentinel (only bs) len := by
      intro c hc
      simp [only, ← hlen] at hc
    have hinside : ∀ pos, bencodeParse (only bs) len place ≠ .stop .outOfBounds pos := by
      intro pos h
      obtain ⟨rest, hrest, hr, hlength⟩ := outOfBounds_overread hmem hsent _ 0 pos h
      have heq : rest.length = bs.length := by omega
      rw [((reads_iff_isPrefix (reads_only bs) heq.le).mp hr).eq_of_length heq] at hrest
      exact hover hrest
    refine ⟨hinside, ?_⟩
    intro string string' hr hr'
    have hsame : ∀ {string}, Reads string 0 bs →
        bencodeParse (only bs) len place = bencodeParse string len place := by
      intro string hr
      rcases bParseAny_mono (.of_reads hr) (len.toNat + 1) 0 with ⟨pos, hstop⟩ | heq
      · exact absurd hstop (hinside pos)
      · exact heq
    rw [← hsame hr, ← hsame hr']

/-- **It does not always.** The one-byte buffer `0`: the byte behind it is read, and the code returned
depends on it. -/
theorem bencodeParse_outside :
    bencodeParse (only [48]) 1 (fun _ => 0) = .stop .outOfBounds 1 ∧
    (bencodeParse (only [48, 58]) 1 (fun _ => 0)).outcome ≠
      (bencodeParse (only [48, 0]) 1 (fun _ => 0)).outcome := by
  refine ⟨rfl, ?_⟩
  intro h
  have hnul : (bencodeParse (only [48, 0]) 1 (fun _ => 0)).outcome = .error (.code (-2)) := rfl
  rw [hnul] at h
  exact nomatch h

/-- `bencodeParse_inside_iff` on the buffer `i0e`. -/
theorem bencodeParse_inside_iff_example :
    ((∀ pos, bencodeParse (only [105, 48, 101]) 3 (fun _ => 0) ≠ .stop .outOfBounds pos) ∧
      ∀ string string', Reads string 0 [105, 48, 101] → Reads string' 0 [105, 48, 101] →
        (bencodeParse string 3 (fun _ => 0)).outcome =
          (bencodeParse string' 3 (fun _ => 0)).outcome) ↔ ¬ Overread [105, 48, 101] :=
  bencodeParse_inside_iff rfl (fun _ => 0)

end Flood.Bencode
