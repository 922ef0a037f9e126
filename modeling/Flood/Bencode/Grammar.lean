import Flood.Bencode.Sound

/-!
# The bencode grammar

* `Derives S I` — trees whose strings satisfy `S` and whose integers satisfy `I`.
* `WellFormed` — the grammar as usually given: canonical numerals, exact lengths.
* `Padded` — leading zeros and a minus before zero allowed. `Lax` — integers without digits too.
* `Lax.append_inj` — no two trees have the same text.
* `bencodeParse_padded` — the parser takes every padded text and nothing that is not lax; the text it
  takes is the only prefix of its kind.
* `padded_not_wellFormed` — it takes `i03e`, no prefix of which is well formed.
-/

namespace Flood.Bencode

open Flood.Lib Flood.Hashtable

/-- A tree with strings, keys among them, that satisfy `S` and integers that satisfy `I`. -/
inductive Derives (S : StrText → Prop) (I : Bool → List UInt8 → Prop) : Syn → Prop
  | string {s : StrText} (h : S s) : Derives S I (.string s)
  | integer {neg : Bool} {digits : List UInt8} (h : I neg digits) : Derives S I (.integer neg digits)
  | list {items : List Syn} (h : ∀ t ∈ items, Derives S I t) : Derives S I (.list items)
  | dict {pairs : List (StrText × Syn)} (hkeys : ∀ p ∈ pairs, S p.1)
      (h : ∀ p ∈ pairs, Derives S I p.2) : Derives S I (.dict pairs)

/-- A length in canonical decimal, and as many bytes. -/
def StrText.WellFormed (s : StrText) : Prop :=
  Canonical s.digits ∧ decimal s.digits = s.payload.length

/-- A length in decimal, leading zeros or not, and as many bytes. -/
def StrText.Padded (s : StrText) : Prop :=
  s.digits ≠ [] ∧ (∀ c ∈ s.digits, isDigit c = true) ∧ decimal s.digits = s.payload.length

/-- **The bencode grammar**: canonical numerals, no minus before zero. -/
def WellFormed : Syn → Prop :=
  Derives StrText.WellFormed fun neg digits => Canonical digits ∧ (neg = true → digits ≠ [48])

/-- The grammar with leading zeros and a minus before zero. -/
def Padded : Syn → Prop :=
  Derives StrText.Padded fun _ digits => digits ≠ [] ∧ ∀ c ∈ digits, isDigit c = true

/-- The padded grammar with integers that have no digits. -/
def Lax : Syn → Prop := Derives StrText.Padded fun _ digits => ∀ c ∈ digits, isDigit c = true

/-- Every numeral of a tree is an `int`. -/
def NumeralsFit : Syn → Prop :=
  Derives (fun s => (decimal s.digits : Int) ≤ intMax) fun _ digits => (decimal digits : Int) ≤ intMax

/-- A tree of one grammar is one of a wider grammar. -/
theorem Derives.imp {S S' : StrText → Prop} {I I' : Bool → List UInt8 → Prop} {t : Syn}
    (hS : ∀ s, S s → S' s) (hI : ∀ neg digits, I neg digits → I' neg digits) (h : Derives S I t) :
    Derives S' I' t := by
  induction h with
  | string h => exact .string (hS _ h)
  | integer h => exact .integer (hI _ _ h)
  | list _ ih => exact .list ih
  | dict hkeys _ ih => exact .dict (fun p hp => hS _ (hkeys p hp)) ih

/-- Canonical numerals are padded by nothing. -/
theorem WellFormed.padded {t : Syn} (h : WellFormed t) : Padded t :=
  Derives.imp (fun _ hs => ⟨hs.1.1, hs.1.2.1, hs.2⟩) (fun _ _ hi => ⟨hi.1.1, hi.1.2.1⟩) h

/-- Padded trees are lax. -/
theorem Padded.lax {t : Syn} (h : Padded t) : Lax t := Derives.imp (fun _ => id) (fun _ _ => And.right) h

/-! ## The grammar and what the parser asks -/

/-- A padded string that is no longer than an `int` says meets what the parser asks of a key. -/
theorem StrText.Padded.keySpelled {s : StrText} (h : s.Padded) (hfit : (s.bytes.length : Int) ≤ intMax) :
    s.KeySpelled := by
  obtain ⟨hne, hdigits, hlength⟩ := h
  rw [length_bytes_str] at hfit
  push_cast at hfit
  have hlen : s.len = s.payload.length := by
    rw [StrText.len, numeral, hlength]
    exact wrap32_natCast (by omega)
  exact ⟨⟨hne, hdigits, by rw [hlen, Int.toNat_natCast], by omega⟩, by omega⟩

/-- A lax tree whose text is no longer than an `int` says meets what the parser asks. -/
theorem Lax.spelled {t : Syn} (h : Lax t) (hfit : (t.bytes.length : Int) ≤ intMax) : Spelled t := by
  induction h with
  | string h => exact .string (h.keySpelled hfit).toSpelled
  | integer h => exact .integer h
  | @list items _ ih =>
      rw [Syn.bytes, List.length_cons, List.length_append] at hfit
      push_cast at hfit
      refine .list fun t ht => ih t ht ?_
      have := length_le_of_mem_items ht
      omega
  | @dict pairs hkeys _ ih =>
      rw [Syn.bytes, List.length_cons, List.length_append] at hfit
      push_cast at hfit
      refine .dict (fun p hp => (hkeys p hp).keySpelled ?_) (fun p hp => ih p hp ?_)
      all_goals
        have := length_le_of_mem_pairs hp
        omega

/-- Where the length is an `int`, what the parser asks of a string is the grammar's. -/
theorem StrText.Spelled.padded {s : StrText} (h : s.Spelled)
    (hfit : (decimal s.digits : Int) ≤ intMax) : s.Padded := by
  have hlen : s.len = decimal s.digits := by
    rw [StrText.len, numeral]
    exact wrap32_natCast hfit
  refine ⟨h.ne_nil, h.digits, ?_⟩
  rw [h.length_payload, hlen, Int.toNat_natCast]

/-- Where the numerals are `int`s, what the parser asks is the lax grammar. -/
theorem Spelled.lax {t : Syn} (h : Spelled t) (hfit : NumeralsFit t) : Lax t := by
  induction h with
  | string h =>
      cases hfit with
      | string hfit => exact .string (h.padded hfit)
  | integer h => exact .integer h
  | list _ ih =>
      cases hfit with
      | list hfit => exact .list fun t ht => ih t ht (hfit t ht)
  | dict hkeys _ ih =>
      cases hfit with
      | dict hfitKeys hfit =>
          exact .dict (fun p hp => (hkeys p hp).toSpelled.padded (hfitKeys p hp))
            (fun p hp => ih p hp (hfit p hp))

/-! ## One text for one tree -/

/-- A run of digits, and what stands behind it, does not start with another byte. -/
theorem digits_append_ne {ds r r' : List UInt8} {c e : UInt8} (hd : ∀ d ∈ ds, isDigit d = true)
    (hc : isDigit c = false) (he : ds = [] → e ≠ c) : ds ++ e :: r ≠ c :: r' := by
  intro heq
  cases ds with
  | nil => exact he rfl (List.cons.inj heq).1
  | cons d ds =>
      have hdigit := hd d List.mem_cons_self
      rw [(List.cons.inj heq).1, hc] at hdigit
      exact Bool.false_ne_true hdigit

/-- A run of digits ends where the first other byte stands. -/
theorem digits_append_inj {ds ds' r r' : List UInt8} {c : UInt8} (hd : ∀ d ∈ ds, isDigit d = true)
    (hd' : ∀ d ∈ ds', isDigit d = true) (hc : isDigit c = false)
    (h : ds ++ c :: r = ds' ++ c :: r') : ds = ds' ∧ r = r' := by
  induction ds generalizing ds' with
  | nil =>
      cases ds' with
      | nil => exact ⟨rfl, (List.cons.inj h).2⟩
      | cons d ds' =>
          exact absurd h.symm (digits_append_ne hd' hc fun hnil => absurd hnil (List.cons_ne_nil _ _))
  | cons d ds ih =>
      cases ds' with
      | nil => exact absurd h (digits_append_ne hd hc fun hnil => absurd hnil (List.cons_ne_nil _ _))
      | cons d' ds' =>
          obtain ⟨hhead, htail⟩ := List.cons.inj h
          obtain ⟨hrest, hr⟩ := ih (List.forall_mem_cons.mp hd).2 (List.forall_mem_cons.mp hd').2 htail
          rw [hhead, hrest]
          exact ⟨rfl, hr⟩

/-- A string ends where its numeral says. -/
theorem StrText.Padded.append_inj {s s' : StrText} (h : s.Padded) (h' : s'.Padded)
    {r r' : List UInt8} (heq : s.bytes ++ r = s'.bytes ++ r') : s = s' ∧ r = r' := by
  obtain ⟨-, hd, hlen⟩ := h
  obtain ⟨-, hd', hlen'⟩ := h'
  rw [StrText.bytes, StrText.bytes, List.append_assoc, List.append_assoc, List.cons_append,
    List.cons_append] at heq
  obtain ⟨hdigits, hpayload⟩ := digits_append_inj hd hd' rfl heq
  have hlength : s.payload.length = s'.payload.length := by rw [← hlen, ← hlen', hdigits]
  obtain ⟨hpay, hr⟩ := List.append_inj hpayload hlength
  exact ⟨(StrText.mk.injEq _ _ _ _).mpr ⟨hdigits, hpay⟩, hr⟩

/-- A string starts with a digit. -/
theorem StrText.Padded.append_ne {s : StrText} (h : s.Padded) {r r' : List UInt8} {c : UInt8}
    (hc : isDigit c = false) : s.bytes ++ r ≠ c :: r' := by
  rw [StrText.bytes, List.append_assoc, List.cons_append]
  exact digits_append_ne h.2.1 hc fun hnil => absurd hnil h.1

/-- An integer ends where its digits do. -/
theorem integer_append_inj {neg neg' : Bool} {ds ds' : List UInt8} (hd : ∀ d ∈ ds, isDigit d = true)
    (hd' : ∀ d ∈ ds', isDigit d = true) {r r' : List UInt8}
    (heq : (Syn.integer neg ds).bytes ++ r = (Syn.integer neg' ds').bytes ++ r') :
    Syn.integer neg ds = .integer neg' ds' ∧ r = r' := by
  simp only [Syn.bytes, List.cons_append, List.append_assoc, List.nil_append, List.cons.injEq,
    true_and] at heq
  have hsame : neg = neg' ∧ ds ++ 101 :: r = ds' ++ 101 :: r' := by
    cases neg with
    | false =>
        cases neg' with
        | false => exact ⟨rfl, heq⟩
        | true => exact absurd heq (digits_append_ne hd rfl fun _ => by decide)
    | true =>
        cases neg' with
        | false => exact absurd heq.symm (digits_append_ne hd' rfl fun _ => by decide)
        | true => exact ⟨rfl, (List.cons.inj heq).2⟩
  obtain ⟨hdigits, hr⟩ := digits_append_inj hd hd' rfl hsame.2
  rw [hsame.1, hdigits]
  exact ⟨rfl, hr⟩

/-- No text starts as a list or a dictionary ends. -/
theorem Lax.append_ne {t : Syn} (h : Lax t) {r r' : List UInt8} : t.bytes ++ r ≠ 101 :: r' := by
  cases h with
  | string h => exact h.append_ne rfl
  | integer h => simp [Syn.bytes]
  | list h => simp [Syn.bytes]
  | dict hkeys h => simp [Syn.bytes]

/-- What no other text starts with, whatever stands behind. -/
def Determined (t : Syn) : Prop :=
  ∀ {t' : Syn} {r r' : List UInt8}, Lax t' → t.bytes ++ r = t'.bytes ++ r' → t = t' ∧ r = r'

/-- The items of a list are determined one by one, up to its end. -/
theorem bytesItems_inj {items items' : List Syn} (h : ∀ t ∈ items, Lax t)
    (hdet : ∀ t ∈ items, Determined t) (h' : ∀ t ∈ items', Lax t) {r r' : List UInt8}
    (heq : bytesItems items ++ 101 :: r = bytesItems items' ++ 101 :: r') :
    items = items' ∧ r = r' := by
  induction items generalizing items' with
  | nil =>
      cases items' with
      | nil => exact ⟨rfl, (List.cons.inj heq).2⟩
      | cons t' items' =>
          rw [bytesItems, bytesItems, List.append_assoc] at heq
          exact absurd heq.symm (h' t' List.mem_cons_self).append_ne
  | cons t items ih =>
      obtain ⟨ht, hitems⟩ := List.forall_mem_cons.mp h
      obtain ⟨hdett, hdets⟩ := List.forall_mem_cons.mp hdet
      cases items' with
      | nil =>
          rw [bytesItems, bytesItems, List.append_assoc] at heq
          exact absurd heq ht.append_ne
      | cons t' items' =>
          obtain ⟨ht', hitems'⟩ := List.forall_mem_cons.mp h'
          rw [bytesItems, bytesItems, List.append_assoc, List.append_assoc] at heq
          obtain ⟨rfl, hrest⟩ := hdett ht' heq
          obtain ⟨rfl, hr⟩ := ih hitems hdets hitems' hrest
          exact ⟨rfl, hr⟩

/-- The keys and values of a dictionary are determined one by one, up to its end. -/
theorem bytesPairs_inj {pairs pairs' : List (StrText × Syn)} (h : ∀ p ∈ pairs, p.1.Padded)
    (hdet : ∀ p ∈ pairs, Determined p.2) (hkeys' : ∀ p ∈ pairs', p.1.Padded)
    (h' : ∀ p ∈ pairs', Lax p.2) {r r' : List UInt8}
    (heq : bytesPairs pairs ++ 101 :: r = bytesPairs pairs' ++ 101 :: r') :
    pairs = pairs' ∧ r = r' := by
  induction pairs generalizing pairs' with
  | nil =>
      cases pairs' with
      | nil => exact ⟨rfl, (List.cons.inj heq).2⟩
      | cons p' pairs' =>
          rw [bytesPairs, bytesPairs, List.append_assoc, List.append_assoc] at heq
          exact absurd heq.symm ((hkeys' p' List.mem_cons_self).append_ne rfl)
  | cons p pairs ih =>
      obtain ⟨hp, hpairs⟩ := List.forall_mem_cons.mp h
      obtain ⟨hdetp, hdets⟩ := List.forall_mem_cons.mp hdet
      cases pairs' with
      | nil =>
          rw [bytesPairs, bytesPairs, List.append_assoc, List.append_assoc] at heq
          exact absurd heq (hp.append_ne rfl)
      | cons p' pairs' =>
          obtain ⟨hkey', hkeys'⟩ := List.forall_mem_cons.mp hkeys'
          obtain ⟨ht', hpairs'⟩ := List.forall_mem_cons.mp h'
          rw [bytesPairs, bytesPairs, List.append_assoc, List.append_assoc, List.append_assoc,
            List.append_assoc] at heq
          obtain ⟨hkey, hrest⟩ := hp.append_inj hkey' heq
          obtain ⟨hvalue, hrest⟩ := hdetp ht' hrest
          obtain ⟨rfl, hr⟩ := ih hpairs hdets hkeys' hpairs' hrest
          rw [Prod.ext hkey hvalue]
          exact ⟨rfl, hr⟩

/-- **One text, one tree**: what starts with the texts of two lax trees starts with that of one, and
is the same behind it. -/
theorem Lax.append_inj {t t' : Syn} (h : Lax t) (h' : Lax t') {r r' : List UInt8}
    (heq : t.bytes ++ r = t'.bytes ++ r') : t = t' ∧ r = r' := by
  suffices hdet : Determined t from hdet h' heq
  clear h' heq
  induction h with
  | @string s h =>
      intro t' r r' h' heq
      cases h' with
      | string h' =>
          obtain ⟨rfl, hr⟩ := h.append_inj h' heq
          exact ⟨rfl, hr⟩
      | integer h' => exact absurd heq (h.append_ne rfl)
      | list h' => exact absurd heq (h.append_ne rfl)
      | dict hkeys' h' => exact absurd heq (h.append_ne rfl)
  | @integer neg digits h =>
      intro t' r r' h' heq
      cases h' with
      | string h' => exact absurd heq.symm (h'.append_ne rfl)
      | integer h' => exact integer_append_inj h h' heq
      | list h' => simp [Syn.bytes] at heq
      | dict hkeys' h' => simp [Syn.bytes] at heq
  | @list items h ih =>
      intro t' r r' h' heq
      cases h' with
      | string h' => exact absurd heq.symm (h'.append_ne rfl)
      | integer h' => simp [Syn.bytes] at heq
      | list h' =>
          rw [Syn.bytes, Syn.bytes, List.cons_append, List.cons_append, List.append_assoc,
            List.append_assoc] at heq
          obtain ⟨rfl, hr⟩ := bytesItems_inj h ih h' (List.cons.inj heq).2
          exact ⟨rfl, hr⟩
      | dict hkeys' h' => simp [Syn.bytes] at heq
  | @dict pairs hkeys h ih =>
      intro t' r r' h' heq
      cases h' with
      | string h' => exact absurd heq.symm (h'.append_ne rfl)
      | integer h' => simp [Syn.bytes] at heq
      | list h' => simp [Syn.bytes] at heq
      | dict hkeys' h' =>
          rw [Syn.bytes, Syn.bytes, List.cons_append, List.cons_append, List.append_assoc,
            List.append_assoc] at heq
          obtain ⟨rfl, hr⟩ := bytesPairs_inj hkeys ih hkeys' h' (List.cons.inj heq).2
          exact ⟨rfl, hr⟩

/-! ## Prefixes -/

variable {string : Nat → Option UInt8} {place : Nat → Addr}

/-- What can be read within known bytes are their prefixes. -/
theorem reads_iff_isPrefix {pos : Nat} {bs cs : List UInt8} (h : Reads string pos bs)
    (hle : cs.length ≤ bs.length) : Reads string pos cs ↔ cs <+: bs := by
  induction cs generalizing pos bs with
  | nil => simp
  | cons c cs ih =>
      cases bs with
      | nil => simp at hle
      | cons b bs =>
          rw [reads_cons, List.cons_prefix_cons, ih h.2 (by simpa using hle), h.1, Option.some.injEq,
            eq_comm]

/-- A memory that holds a buffer and nothing else. -/
def only (bs : List UInt8) : Nat → Option UInt8 := fun i => bs[i]?

/-- The bytes of the buffer are read in turn. -/
theorem reads_only (bs : List UInt8) : Reads (only bs) 0 bs := by
  have hdrop : ∀ rest pos, bs.drop pos = rest → Reads (only bs) pos rest := by
    intro rest
    induction rest with
    | nil => exact fun _ _ => trivial
    | cons c rest ih =>
        intro pos h
        have hget : bs[pos]? = some c := by
          rw [← List.head?_drop, h]
          rfl
        exact ⟨hget, ih (pos + 1) (by rw [← List.tail_drop, h, List.tail_cons])⟩
  exact hdrop bs 0 rfl

/-- **At most one spelled text starts at a place.** -/
theorem Spelled.bytes_unique {t t' : Syn} (ht : Spelled t) (ht' : Spelled t') {pos : Nat}
    (hr : Reads string pos t.bytes) (hr' : Reads string pos t'.bytes) : t.bytes = t'.bytes := by
  -- in a buffer with room for both, the parser stands behind the one and behind the other
  have hparse := @bParseAny_complete string (pos + t.bytes.length + t'.bytes.length) (fun _ => 0) t ht
    (t.bytes.length + t'.bytes.length) (by omega) pos hr (by omega)
  have hparse' := @bParseAny_complete string (pos + t.bytes.length + t'.bytes.length) (fun _ => 0) t'
    ht' (t.bytes.length + t'.bytes.length) (by omega) pos hr' (by omega)
  rw [hparse, Result.ok.injEq] at hparse'
  have hlength : t.bytes.length = t'.bytes.length := by omega
  exact ((reads_iff_isPrefix hr' hlength.le).mp hr).eq_of_length hlength

/-- A NUL behind the buffer is a sentinel. -/
theorem sentinel_of_nul {len : Int} (h : string len.toNat = some 0) : Sentinel string len := by
  intro c hc
  rw [h] at hc
  obtain rfl := Option.some.inj hc
  exact ⟨rfl, by decide, by decide⟩

/-! ## The language of the parser -/

/-- **The parser accepts the bencode grammar, with padded numerals.** On a NUL-terminated buffer
whose numerals are `int`s: it takes every prefix that is a padded text, whole. What it takes is a
prefix that is padded up to integers without digits. And there is only one such prefix. -/
theorem bencodeParse_padded (place : Nat → Addr) {bs : List UInt8}
    (hbuffer : Reads string 0 (bs ++ [0])) (hlen : (bs.length : Int) ≤ intMax)
    (hfit : ∀ t, Spelled t → t.bytes <+: bs → NumeralsFit t) :
    (∀ t, Padded t → t.bytes <+: bs →
      ∃ v, bencodeParse string bs.length place = .ok v t.bytes.length) ∧
    (∀ v pos, bencodeParse string bs.length place = .ok v pos →
      ∃ t, Lax t ∧ t.bytes <+: bs ∧ pos = t.bytes.length) ∧
    (∀ t t', Lax t → Lax t' → t.bytes <+: bs → t'.bytes <+: bs → t.bytes = t'.bytes) := by
  obtain ⟨hbytes, hnul⟩ := reads_append.mp hbuffer
  rw [Nat.zero_add] at hnul
  have hsent : Sentinel string (bs.length : Int) := sentinel_of_nul hnul.1
  have hle : ∀ {t : Syn}, t.bytes <+: bs → (t.bytes.length : Int) ≤ intMax := by
    intro t ht
    have := ht.length_le
    omega
  have hreads : ∀ {t : Syn}, t.bytes <+: bs → Reads string 0 t.bytes := fun ht =>
    (reads_iff_isPrefix hbytes ht.length_le).mpr ht
  refine ⟨?_, ?_, ?_⟩
  · intro t ht hpre
    refine ⟨t.value place 0, (bencodeParse_eq_ok_iff hsent).mpr ?_⟩
    exact ⟨t, ht.lax.spelled (hle hpre), hreads hpre, rfl, mod_cast hpre.length_le, rfl⟩
  · intro v pos h
    obtain ⟨t, hs, hr, hpos, hin, _⟩ := (bencodeParse_eq_ok_iff hsent).mp h
    have hpre := (reads_iff_isPrefix hbytes (by omega)).mp hr
    exact ⟨t, hs.lax (hfit t hs hpre), hpre, hpos⟩
  · intro t t' ht ht' hpre hpre'
    exact (ht.spelled (hle hpre)).bytes_unique (ht'.spelled (hle hpre')) (hreads hpre)
      (hreads hpre')

/-- The only spelled text in it is the integer. -/
theorem Spelled.eq_i03e {t : Syn} (ht : Spelled t) (hpre : t.bytes <+: [105, 48, 51, 101]) :
    t = .integer false [48, 51] := by
  have hall : Spelled (.integer false [48, 51]) := .integer (List.all_eq_true.mp rfl)
  have hr := reads_only [105, 48, 51, 101]
  have hbytes : t.bytes = [105, 48, 51, 101] :=
    ht.bytes_unique hall ((reads_iff_isPrefix hr hpre.length_le).mpr hpre) hr
  cases ht with
  | @string s h =>
      obtain ⟨d, ds, hds⟩ := List.exists_cons_of_ne_nil h.ne_nil
      rw [Syn.bytes, StrText.bytes, hds, List.cons_append, List.cons.injEq] at hbytes
      have := h.digits d (hds ▸ List.mem_cons_self)
      rw [hbytes.1] at this
      exact absurd this (by decide)
  | @integer neg digits h =>
      cases neg with
      | true => simp [Syn.bytes] at hbytes
      | false =>
          have hdigits : digits ++ [101] = [48, 51] ++ [101] := by simpa [Syn.bytes] using hbytes
          rw [List.append_cancel_right hdigits]
  | list h => simp [Syn.bytes] at hbytes
  | dict hkeys h => simp [Syn.bytes] at hbytes

/-- `bencodeParse_padded` on `i03e`. -/
theorem bencodeParse_padded_example :
    ∃ v, bencodeParse (only [105, 48, 51, 101, 0]) 4 (fun _ => 0) = .ok v 4 :=
  (bencodeParse_padded (fun _ => 0) (reads_only _) (by decide) (fun t ht hpre =>
      ht.eq_i03e hpre ▸ .integer (by decide))).1
    (.integer false [48, 51]) (.integer ⟨by decide, List.all_eq_true.mp rfl⟩) (List.prefix_refl _)

/-- **A padded numeral is taken.** The parser takes `i03e`, whose numeral is an `int`, and no prefix
of it is well formed. -/
theorem padded_not_wellFormed :
    (∀ t, Spelled t → t.bytes <+: [105, 48, 51, 101] → NumeralsFit t) ∧
    (∃ v pos, bencodeParse (only [105, 48, 51, 101, 0]) 4 (fun _ => 0) = .ok v pos) ∧
    ¬ ∃ t, WellFormed t ∧ t.bytes <+: [105, 48, 51, 101] := by
  refine ⟨?_, ?_, ?_⟩
  · intro t ht hpre
    rw [ht.eq_i03e hpre]
    exact .integer (by decide)
  · refine ⟨(Syn.integer false [48, 51]).value (fun _ => 0) 0, 4, ?_⟩
    refine (bencodeParse_eq_ok_iff (sentinel_of_nul rfl)).mpr ?_
    have hr := reads_append.mp (reads_only ([105, 48, 51, 101] ++ [0]))
    exact ⟨.integer false [48, 51], .integer (List.all_eq_true.mp rfl), hr.1, rfl, by decide, rfl⟩
  · rintro ⟨t, ht, hpre⟩
    have hfit : (t.bytes.length : Int) ≤ intMax := by
      have := hpre.length_le
      simp only [List.length_cons, List.length_nil] at this
      unfold intMax
      omega
    rw [(ht.padded.lax.spelled hfit).eq_i03e hpre] at ht
    cases ht with
    | integer h => exact absurd h.1 (by decide)

end Flood.Bencode
