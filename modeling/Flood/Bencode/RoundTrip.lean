import Flood.Bencode.Integers
import Flood.Bencode.TwoPass

/-!
# Decoding undoes encoding

* `wellFormed_describe` — what is written is a well-formed text.
* `denote_dict_congr` — dictionaries with the same entries, in any order, mean the same.
* `denote_value_describe` — the text of a value, parsed, means what the value means.
* `Built` — the values that are built from numbers, byte strings, lists and dictionaries whose keys were
  put once each.
* `RoundTrips` — encoding and decoding such a value; `decode_encode_iff` — it works unless the text has as
  many bytes as the largest `int`; `no_block` — then there is no block for it.
-/

namespace Flood.Bencode

open Flood.Lib Flood.Hashtable

variable {qsort : Qsort} {v : BencodeValue} {place : Nat → Addr}

/-! ## What is written is well formed -/

/-- The digits of a number other than zero are not those of zero. -/
theorem printNat_ne_zero {n : Nat} (h : n ≠ 0) : printNat n ≠ [48] := by
  intro heq
  have hval := decimal_printNat n
  rw [heq] at hval
  exact h hval.symm

/-- A length and as many bytes. -/
theorem wellFormed_itoa {len : Int} {payload : List UInt8} (h : len = payload.length) :
    StrText.WellFormed ⟨itoa len, payload⟩ := by
  rw [h, itoa_natCast]
  exact ⟨canonical_printNat _, decimal_printNat _⟩

/-- **What is written is a well-formed text.** -/
theorem wellFormed_describe (qsort : Qsort) (hheld : v.Forall Held) (hsized : v.Forall Sized) :
    WellFormed (describe qsort v) := by
  induction v using BencodeValue.induct with
  | hstring s start stop =>
      obtain ⟨p, hptr, hlen⟩ := hheld.root.2 hsized.root
      rw [describe_string, stringText, hptr]
      exact .string (wellFormed_itoa hlen)
  | hinteger n start stop =>
      rw [describe_integer, integerSyn]
      refine .integer ⟨canonical_printNat _, fun hneg => printNat_ne_zero ?_⟩
      have := of_decide_eq_true hneg
      omega
  | hlist elems start stop ih =>
      rw [describe_list]
      exact .list (List.forall_mem_map.mpr fun v hv =>
        ih v hv (hheld.elem v hv) (hsized.elem v hv))
  | hdict t start stop ih =>
      obtain ⟨hwf, hkeys⟩ := hheld.root
      have hmem : ∀ e ∈ emitted qsort t, e ∈ t.entries := fun e he =>
        (emitted_perm qsort hwf).mem_iff.mp he
      rw [describe_dict]
      refine .dict (List.forall_mem_map.mpr fun e he => ?_) (List.forall_mem_map.mpr fun e he => ?_)
      · have hlen : keyLen e.1 = e.1.str.length :=
          wrap32_natCast (hkeys e (hmem e he))
        exact wellFormed_itoa hlen
      · exact ih e (hmem e he) (hheld.entry e (hmem e he)) (hsized.entry e (hmem e he))

/-! ## What a dictionary means -/

/-- The pointer with no address, to the C string alone. -/
def CharPtr.plain (p : CharPtr) : CharPtr := ⟨0, p.str⟩

/-- Pointers compare as those to their C strings. -/
theorem cmpFuncStr_plain (p q : CharPtr) : cmpFuncStr p.plain q.plain = cmpFuncStr p q := by
  unfold cmpFuncStr CharPtr.plain
  rw [CharPtr.str, CharPtr.str]
  show strcmp (cstr p.str) (cstr q.str) = _
  rw [CharPtr.str, CharPtr.str, cstr_cstr, cstr_cstr]

/-- An entry with the C string of its key and the meaning of its value. -/
def meant (e : CharPtr × BencodeValue) : CharPtr × Tree := Prod.map CharPtr.plain denote e

/-- What is found in a dictionary means what is found among its entries as they are meant. -/
theorem map_denote_get {t : BencodeDict} (h : t.WF hashFuncStr cmpFuncStr) (p : CharPtr) :
    (t.get hashFuncStr cmpFuncStr p).map denote = lookup cmpFuncStr p.plain (t.entries.map meant) := by
  rw [h.get_eq_lookup strKeys_lawful]
  exact (lookup_map CharPtr.plain denote fun q => cmpFuncStr_plain p q).symm

/-- Keys stay distinct. -/
theorem distinct_map_meant {es : List (CharPtr × BencodeValue)} (h : Distinct cmpFuncStr es) :
    Distinct cmpFuncStr (es.map meant) := by
  refine List.pairwise_map.mpr (h.imp fun {e e'} hne => ?_)
  show cmpFuncStr e.1.plain e'.1.plain ≠ 0
  rwa [cmpFuncStr_plain]

/-- **Dictionaries with the same entries mean the same**, in whatever order they have them. -/
theorem denote_dict_congr {t t' : BencodeDict} (ht : t.WF hashFuncStr cmpFuncStr)
    (ht' : t'.WF hashFuncStr cmpFuncStr)
    (h : (t.entries.map meant).Perm (t'.entries.map meant)) (start stop start' stop' : Int) :
    denote (.dict t start stop) = denote (.dict t' start' stop') := by
  rw [denote_dict, denote_dict]
  congr 1
  funext s
  rw [map_denote_get ht, map_denote_get ht']
  exact lookup_perm strKeys_lawful.toKeyEquiv
    (distinct_map_meant (ht.distinct_entries strKeys_lawful)) h

/-! ## What the text of a value means -/

/-- An integer that is an `int`. -/
def FitsNode : BencodeValue → Prop
  | .integer n _ _ => FitsInt n
  | _ => True

/-- The integer of a text is read back as an `int`. -/
theorem value_integerSyn (n : Int) (off : Nat) :
    (integerSyn n).value place off =
      .integer (wrap32 n) off (stopOf off (integerSyn n).bytes) := by
  rw [integerSyn, Syn.value, integerOf_printNat, wrap32_wrap32]

/-- The length of the text of a string, if it counts the payload. -/
theorem StrText.Spelled.len_eq {s : StrText} (hs : s.Spelled)
    (h : decimal s.digits = s.payload.length) : s.len = s.payload.length := by
  have hlength := hs.length_payload
  by_cases hpos : 0 ≤ s.len
  · omega
  · -- a negative length counts as zero, but no numeral for zero is negative
    have hzero : s.payload.length = 0 := by omega
    have hlen : s.len = wrap32 (0 : Nat) := by rw [StrText.len, numeral, h, hzero]
    rw [hlen, hzero]
    decide

/-- The string of such a text. -/
theorem StrText.Spelled.value_eq {s : StrText} (hs : s.Spelled)
    (h : decimal s.digits = s.payload.length) (off : Nat) :
    s.value place off = ⟨some (s.ptr place off), s.payload.length⟩ := by
  have hlen := hs.len_eq h
  have halloc : allocated s.len = true := by
    rw [hs.allocated_iff, hlen]
    omega
  rw [StrText.value, if_pos halloc, hlen]

/-- What is computed from the values of texts of things, wherever they stand, is computed from the
things. -/
theorem map_valueItems {α β : Type} {f : BencodeValue → α} {g : β → α} {text : β → Syn} {l : List β}
    (h : ∀ x ∈ l, ∀ off, f ((text x).value place off) = g x) (off : Nat) :
    (valueItems place off (l.map text)).map f = l.map g := by
  induction l generalizing off with
  | nil => rfl
  | cons x l ih =>
      obtain ⟨hx, hl⟩ := List.forall_mem_cons.mp h
      rw [List.map_cons, valueItems, List.map_cons, List.map_cons, hx, ih hl]

/-- The keys that are written are distinct. -/
theorem pairwise_keyText (qsort : Qsort) {t : BencodeDict} (h : t.WF hashFuncStr cmpFuncStr) :
    ((emitted qsort t).map fun e => (keyText e.1, describe qsort e.2)).Pairwise
      fun p q => cstr p.1.payload ≠ cstr q.1.payload := by
  have hkeys := pairwise_keys h (qsort.perm (t.entries.map Prod.fst))
  rw [← map_fst_emitted qsort h, List.pairwise_map] at hkeys
  refine List.pairwise_map.mpr (hkeys.imp fun {e e'} hne heq => ?_)
  refine hne (cmpFuncStr_eq_zero_iff.mpr ?_)
  rwa [keyText, keyText, CharPtr.str, CharPtr.str, cstr_cstr, cstr_cstr] at heq

/-- **The text of a value means what the value means**, wherever it is parsed from. -/
theorem denote_value_describe (hheld : v.Forall Held) (hsized : v.Forall Sized)
    (hints : v.Forall FitsNode) (hspelled : Spelled (describe qsort v)) (off : Nat) :
    denote ((describe qsort v).value place off) = denote v := by
  induction v using BencodeValue.induct generalizing off with
  | hstring s start stop =>
      obtain ⟨p, hptr, hlen⟩ := hheld.root.2 hsized.root
      rw [describe_string] at hspelled ⊢
      cases hspelled with
      | string hs =>
          have hdec : decimal (stringText s).digits = (stringText s).payload.length := by
            rw [stringText, hptr]
            exact (wellFormed_itoa hlen).2
          rw [Syn.value, hs.value_eq hdec, denote_string, denote_string]
          rfl
  | hinteger n start stop =>
      have hfits : FitsInt n := hints.root
      rw [describe_integer, value_integerSyn, denote_integer, denote_integer, wrap32_of_fits hfits]
  | hlist elems start stop ih =>
      rw [describe_list] at hspelled ⊢
      cases hspelled with
      | list hs =>
          have helems := fun v hv => ih v hv (hheld.elem v hv) (hsized.elem v hv) (hints.elem v hv)
            (hs _ (List.mem_map_of_mem hv))
          rw [Syn.value, denote_list, denote_list, map_valueItems helems]
  | hdict t start stop ih =>
      have hwf := hheld.root.1
      have hperm := emitted_perm qsort hwf
      rw [describe_dict] at hspelled ⊢
      cases hspelled with
      | dict hkeys hs =>
          have hmeant : ∀ e ∈ emitted qsort t, ∀ off off',
              meant ((keyText e.1).ptr place off, (describe qsort e.2).value place off') = meant e := by
            intro e he off off'
            have he' := hperm.mem_iff.mp he
            have hse : Spelled (describe qsort e.2) := hs _ (List.mem_map_of_mem he)
            refine Prod.ext ?_ (ih e he' (hheld.entry e he') (hsized.entry e he') (hints.entry e he')
              hse off')
            show CharPtr.mk 0 (cstr (cstr e.1.bytes)) = CharPtr.mk 0 (cstr e.1.bytes)
            rw [cstr_cstr]
          have hentries := (@entries_tableOf place (off + 1) _ (pairwise_keyText qsort hwf)).map
            meant
          have hmap := @map_entriesOf place _ _ meant meant
            (fun e => (keyText e.1, describe qsort e.2)) (emitted qsort t) hmeant (off + 1)
          rw [hmap] at hentries
          rw [Syn.value]
          exact denote_dict_congr (wf_tableOf Table.WF.init) hwf (hentries.trans (hperm.map meant))
            _ _ _ _

/-- A string has as many bytes as it says. -/
def Whole : BencodeValue → Prop
  | .string s _ _ => ∃ p, s.ptr = some p ∧ s.len = p.bytes.length
  | _ => True

/-- What holds of the values of a text holds of those of the dictionary it makes. -/
theorem forall_mem_tableOf {P : BencodeValue → Prop} {pairs : List (StrText × Syn)}
    (h : ∀ p ∈ pairs, ∀ off, P (p.2.value place off)) (off : Nat) :
    ∀ e ∈ (tableOf place off pairs Table.init).entries, P e.2 := by
  have hfrom : ∀ dict : BencodeDict, dict.WF hashFuncStr cmpFuncStr → (∀ e ∈ dict.entries, P e.2) →
      ∀ e ∈ (tableOf place off pairs dict).entries, P e.2 := by
    induction pairs generalizing off with
    | nil =>
        intro dict _ hP
        rwa [tableOf]
    | cons p pairs ih =>
        intro dict hdict hP
        obtain ⟨key, t⟩ := p
        obtain ⟨ht, hpairs⟩ := List.forall_mem_cons.mp h
        rw [tableOf]
        refine ih hpairs _ _ (hdict.put strKeys_lawful _ _) fun e he => ?_
        rcases mem_entries_put hdict he with hv | he
        · rw [hv]
          exact ht _
        · exact hP e he
  refine hfrom Table.init Table.WF.init ?_
  rw [Table.entries_init]
  exact fun e he => absurd he List.not_mem_nil

/-- What holds of the values of the items of a text holds of those of the list it makes. -/
theorem forall_mem_valueItems {P : BencodeValue → Prop} {items : List Syn}
    (h : ∀ t ∈ items, ∀ off, P (t.value place off)) (off : Nat) :
    ∀ v ∈ valueItems place off items, P v := by
  induction items generalizing off with
  | nil =>
      rw [valueItems]
      exact fun v hv => absurd hv List.not_mem_nil
  | cons t items ih =>
      obtain ⟨ht, hitems⟩ := List.forall_mem_cons.mp h
      rw [valueItems]
      exact List.forall_mem_cons.mpr ⟨ht off, ih hitems _⟩

/-- The strings of a well-formed text have as many bytes as they say. -/
theorem WellFormed.whole {t : Syn} (h : WellFormed t) (hspelled : Spelled t) (off : Nat) :
    (t.value place off).Forall Whole := by
  induction hspelled generalizing off with
  | @string s hs =>
      cases h with
      | string hwf =>
          rw [Syn.value, hs.value_eq hwf.2]
          exact .string ⟨s.ptr place off, rfl, rfl⟩
  | integer _ =>
      rw [Syn.value]
      exact .integer trivial
  | list _ ih =>
      cases h with
      | list hwf =>
          rw [Syn.value]
          exact .list trivial (forall_mem_valueItems (fun t ht off => ih t ht (hwf t ht) off) _)
  | dict _ _ ih =>
      cases h with
      | dict _ hwf =>
          rw [Syn.value]
          exact .dict trivial (forall_mem_tableOf (fun p hp off => ih p hp (hwf p hp) off) _)

/-! ## Building values -/

/-- The values that are built from numbers no larger than an `int`, up to sign, from byte strings, lists,
and dictionaries whose NUL-free keys were put once each. -/
inductive Built : BencodeValue → Prop
  | string {p : CharPtr} {start stop : Int} : Built (.string ⟨some p, p.bytes.length⟩ start stop)
  | integer {n start stop : Int} (h : (n.natAbs : Int) ≤ intMax) : Built (.integer n start stop)
  | list {elems : List BencodeValue} {start stop : Int} (h : ∀ v ∈ elems, Built v) :
      Built (.list elems start stop)
  | dict {es : List (CharPtr × BencodeValue)} {start stop : Int}
      (hkeys : ∀ e ∈ es, NulFree e.1.bytes)
      (hdistinct : es.Pairwise fun e e' => e.1.bytes ≠ e'.1.bytes) (h : ∀ e ∈ es, Built e.2) :
      Built (.dict (es.foldl (fun t e => t.put hashFuncStr cmpFuncStr e.1 e.2) Table.init) start stop)

/-- The counter of a dictionary counts the puts. -/
theorem size_foldl_put (es : List (CharPtr × BencodeValue)) (t : BencodeDict)
    (h : FitsInt t.size) :
    (es.foldl (fun t e => t.put hashFuncStr cmpFuncStr e.1 e.2) t).size =
      wrap32 (t.size + es.length) := by
  induction es generalizing t with
  | nil =>
      rw [List.foldl_nil, List.length_nil, Nat.cast_zero, Int.add_zero, wrap32_of_fits h]
  | cons e es ih =>
      have hput : FitsInt (t.put hashFuncStr cmpFuncStr e.1 e.2).size := by
        rw [Table.size_put]
        exact fitsInt_wrap32 _
      rw [List.foldl_cons, ih _ hput, Table.size_put, wrap32_wrap32_add, List.length_cons]
      push_cast
      ring_nf

/-- A dictionary of distinct keys counts its entries, if there are no more than an `int` says. -/
theorem length_entries_foldl_put {es : List (CharPtr × BencodeValue)} (h : Distinct cmpFuncStr es)
    (hfits : (es.length : Int) ≤ intMax) :
    ((es.foldl (fun t e => t.put hashFuncStr cmpFuncStr e.1 e.2) Table.init).entries.length : Int) =
      (es.foldl (fun t e => t.put hashFuncStr cmpFuncStr e.1 e.2) Table.init).size := by
  have hzero : (Table.init : BencodeDict).size = 0 := rfl
  rw [(entries_foldl_put h).length_eq, size_foldl_put es Table.init (by decide), hzero, Int.zero_add]
  exact (wrap32_natCast hfits).symm

/-- The text of a dictionary is at least as long as that of a part, and as the number of entries. -/
theorem le_encodedLength_dict (t : BencodeDict) (start stop : Int) :
    (∀ e ∈ t.entries, e.1.str.length + encodedLength e.2 ≤ encodedLength (.dict t start stop)) ∧
      t.entries.length ≤ encodedLength (.dict t start stop) := by
  rw [encodedLength_dict]
  constructor
  · intro e he
    have hkey : (keyText e.1).bytes.length = (itoa (keyLen e.1)).length + 1 + e.1.str.length :=
      length_bytes_str _
    have hle := List.single_le_sum (fun _ _ => Nat.zero_le _) _
      (List.mem_map_of_mem (f := fun e : CharPtr × BencodeValue =>
        (keyText e.1).bytes.length + encodedLength e.2) he)
    omega
  · have hone : ∀ n ∈ t.entries.map fun e => (keyText e.1).bytes.length + encodedLength e.2, 1 ≤ n := by
      refine List.forall_mem_map.mpr fun e _ => ?_
      rw [length_bytes_str]
      omega
    have hle := List.length_le_sum_of_one_le _ hone
    rw [List.length_map] at hle
    omega

/-- A value that is built, and whose text is no longer than an `int` says. -/
theorem Built.held (h : Built v) (hfits : (encodedLength v : Int) ≤ intMax) :
    v.Forall Held ∧ v.Forall Plain ∧ v.Forall FitsNode := by
  induction h with
  | @string p start stop =>
      rw [encodedLength_string] at hfits
      have hlen : FitsInt p.bytes.length := fitsInt_natCast (by push_cast at hfits; omega)
      exact ⟨.string ⟨hlen, fun _ => ⟨p, rfl, rfl⟩⟩, .string (Int.natCast_nonneg _), .string trivial⟩
  | @integer n start stop h =>
      have hn : FitsInt n := ⟨by unfold intMin; unfold intMax at h; omega, by omega⟩
      have hne : wrap32 n ≠ intMin := by
        rw [wrap32_of_fits hn]
        unfold intMin
        unfold intMax at h
        omega
      exact ⟨.integer trivial, .integer hne, .integer hn⟩
  | @list elems start stop h ih =>
      rw [encodedLength_list] at hfits
      have hle : ∀ v ∈ elems, (encodedLength v : Int) ≤ intMax := by
        intro v hv
        have := List.single_le_sum (fun _ _ => Nat.zero_le _) _ (List.mem_map_of_mem (f := encodedLength) hv)
        omega
      exact ⟨.list trivial fun v hv => (ih v hv (hle v hv)).1,
        .list trivial fun v hv => (ih v hv (hle v hv)).2.1,
        .list trivial fun v hv => (ih v hv (hle v hv)).2.2⟩
  | @dict es start stop hkeys hdistinct h ih =>
      have hstrs : Distinct cmpFuncStr es := by
        rw [distinct_iff, List.pairwise_map]
        refine hdistinct.imp_of_mem fun {e e'} he he' hne => ?_
        rwa [cstr_of_nulFree (hkeys e he), cstr_of_nulFree (hkeys e' he')]
      have hinit : (Table.init : BencodeDict).WF hashFuncStr cmpFuncStr := Table.WF.init
      have hentries := entries_foldl_put hstrs
      have hwf := hinit.foldl_put strKeys_lawful es
      have hsize := length_entries_foldl_put hstrs
      obtain ⟨hparts, hcount⟩ := le_encodedLength_dict
        (es.foldl (fun t e => t.put hashFuncStr cmpFuncStr e.1 e.2) Table.init) start stop
      generalize es.foldl (fun t e => t.put hashFuncStr cmpFuncStr e.1 e.2)
        (Table.init : BencodeDict) = t at hentries hwf hsize hparts hcount hfits ⊢
      have hplain : Plain (.dict t start stop) := by
        refine hsize ?_
        rw [← hentries.length_eq]
        omega
      have hheld : Held (.dict t start stop) := ⟨hwf, fun e he => by have := hparts e he; omega⟩
      have hvalues : ∀ e ∈ t.entries,
          e.2.Forall Held ∧ e.2.Forall Plain ∧ e.2.Forall FitsNode := by
        intro e he
        have := hparts e he
        exact ih e (hentries.mem_iff.mp he) (by omega)
      exact ⟨.dict hheld fun e he => (hvalues e he).1, .dict hplain fun e he => (hvalues e he).2.1,
        .dict trivial fun e he => (hvalues e he).2.2⟩

/-! ## There and back -/

/-- A value is encoded, and the block that is returned, decoded with the length that is returned, gives
back a value that means the same, all of whose strings are whole; the text is consumed whole. -/
def RoundTrips (qsort : Qsort) (v : BencodeValue) : Prop :=
  ∃ len block, bencodeToString qsort v = some (len, block) ∧
    ∀ (string : Nat → Option UInt8) (place : Nat → Addr), Reads string 0 block →
      ∃ v', bencodeParse string len place = .ok v' len.toNat ∧ denote v' = denote v ∧
        v'.Forall Whole

/-- What comes back has a text shorter than the largest `int`. -/
theorem RoundTrips.lt_intMax (hbuilt : Built v) (hle : (encodedLength v : Int) ≤ intMax)
    (h : RoundTrips qsort v) : (encodedLength v : Int) < intMax := by
  obtain ⟨hheld, hplain, -⟩ := hbuilt.held hle
  obtain ⟨len, block, hencode, -⟩ := h
  exact lt_intMax_of_bencodeToString hheld hplain hle hencode

/-- **Decoding undoes encoding unless the text is as long as the largest `int`**, for every value that is
built, whatever `qsort` does. -/
theorem decode_encode_iff (hbuilt : Built v) (hlen : encodedLength v < 2 ^ 31) :
    RoundTrips qsort v ↔ encodedLength v ≠ 2 ^ 31 - 1 := by
  have hle : (encodedLength v : Int) ≤ intMax := by
    unfold intMax
    omega
  constructor
  · intro h
    have hlt := h.lt_intMax hbuilt hle
    unfold intMax at hlt
    omega
  · intro hne
    obtain ⟨hheld, hplain, hints⟩ := hbuilt.held hle
    have hsized := (forall_plain_iff.mp hplain).1
    have hlt : (encodedLength v : Int) < intMax := by
      unfold intMax
      omega
    refine ⟨_, _, bencodeToString_eq hheld hplain hlt, fun string place hr => ?_⟩
    have hlength := length_describe qsort hheld hsized
    have hwf := wellFormed_describe qsort hheld hsized
    have hspelled : Spelled (describe qsort v) := hwf.padded.lax.spelled (by rw [hlength]; exact hle)
    have hparse := @bParseAny_complete string (encodedLength v) place _ hspelled
      ((encodedLength v : Int).toNat + 1) (by rw [hlength]; omega) 0 (reads_append.mp hr).1
      (by rw [hlength]; omega)
    rw [hlength, Nat.zero_add] at hparse
    exact ⟨_, hparse, denote_value_describe hheld hsized hints hspelled 0, hwf.whole hspelled 0⟩

/-- A byte string with a NUL, and an integer. -/
def someElems : List BencodeValue := [.string ⟨some ⟨7, [97, 0]⟩, 2⟩ 0 0, .integer (-7) 0 0]

/-- A list of them under the key `a`, and an integer under `b`. -/
def someEntries : List (CharPtr × BencodeValue) :=
  [(⟨1, [97]⟩, .list someElems 0 0), (⟨2, [98]⟩, .integer 5 0 0)]

/-- The value `d1:al2:a\0i-7ee1:bi5ee`, where `\0` is a NUL. -/
def someValue : BencodeValue :=
  .dict (someEntries.foldl (fun t e => t.put hashFuncStr cmpFuncStr e.1 e.2) Table.init) 0 0

/-- It is built. -/
theorem built_someValue : Built someValue := by
  have helems : ∀ v ∈ someElems, Built v :=
    List.forall_mem_cons.mpr ⟨.string, List.forall_mem_singleton.mpr (.integer (by decide))⟩
  refine .dict ?_ ?_ (List.forall_mem_cons.mpr
    ⟨.list helems, List.forall_mem_singleton.mpr (.integer (by decide))⟩)
  · exact List.forall_mem_cons.mpr ⟨by decide, List.forall_mem_singleton.mpr (by decide)⟩
  · simp [someEntries]

/-- The length of its text. -/
theorem encodedLength_someValue : encodedLength someValue = 21 := by
  have hdistinct : Distinct cmpFuncStr someEntries := by
    rw [distinct_iff]
    decide
  have hperm := (entries_foldl_put hdistinct).map
    fun e : CharPtr × BencodeValue => (keyText e.1).bytes.length + encodedLength e.2
  rw [someValue, encodedLength_dict, hperm.sum_eq]
  simp only [someEntries, someElems, List.map_cons, List.map_nil, encodedLength_list,
    encodedLength_string, encodedLength_integer]
  decide

/-- It comes back. -/
theorem decode_encode_iff_example : RoundTrips ⟨id, List.Perm.refl⟩ someValue := by
  refine (decode_encode_iff built_someValue ?_).mpr ?_
  · rw [encodedLength_someValue]
    decide
  · rw [encodedLength_someValue]
    decide

/-- A string of zeros. -/
def zeros (n : Nat) : BencodeValue := .string ⟨some ⟨0, List.replicate n 0⟩, n⟩ 0 0

/-- A string of zeros is built. -/
theorem built_zeros (n : Nat) : Built (zeros n) := by
  have hlen : (n : Int) = (List.replicate n (0 : UInt8)).length := by rw [List.length_replicate]
  rw [zeros, hlen]
  exact @Built.string ⟨0, List.replicate n 0⟩ 0 0

/-- The length of its text. -/
theorem encodedLength_zeros (n : Nat) : encodedLength (zeros n) = (printNat n).length + 1 + n := by
  rw [zeros, encodedLength_string, itoa_natCast, Int.toNat_natCast]

/-- **There is no block for the largest text.** A string of `2147483636` zeros is built, its text has less
than `2 ^ 31` bytes, and it does not come back. -/
theorem no_block :
    Built (zeros 2147483636) ∧ encodedLength (zeros 2147483636) < 2 ^ 31 ∧
      ∀ qsort, ¬ RoundTrips qsort (zeros 2147483636) := by
  have hdigits : (printNat 2147483636).length = 10 := by decide
  have hlength : encodedLength (zeros 2147483636) = 2147483647 := by
    rw [encodedLength_zeros, hdigits]
  refine ⟨built_zeros _, by rw [hlength]; decide, fun qsort h => ?_⟩
  have hlt := h.lt_intMax (built_zeros _) (by rw [hlength]; decide)
  rw [hlength] at hlt
  exact absurd hlt (by decide)

end Flood.Bencode
