import Mathlib.Data.List.Sort
import Flood.Bencode.RoundTrip

/-!
# Canonical texts

* `Ascending` — texts whose dictionaries have NUL-free keys in ascending order; `CanonicalText` — well
  formed besides, with integers that are `int`s.
* `sortedText v` — the text of a value with the keys of every dictionary sorted by their contents;
  `sortedText_value` — of what is parsed from a canonical text, it is that text.
* `describe_congr` — values that mean the same have the same text, where it is in ascending order.
* `Placed` — the addresses of the keys of a dictionary compare as the keys; `adverseSort` — what `qsort`
  may do where they do not.
* `EmitsAscending`, `WrittenAlike`, `EncodedAs` — what is written, however `qsort` uses the comparison
  it is given.
* `canonical_iff` — keys are written in ascending order, whatever means the same is written alike and
  canonical texts come back iff keys are placed; `keys_swapped` — with two keys the other way round in
  memory they are not.
-/

namespace Flood.Bencode

open Flood.Lib Flood.Hashtable

variable {qsort : Qsort} {v : BencodeValue} {place : Nat → Addr}

/-! ## Texts in ascending order -/

/-- The key of one pair comes before that of another. -/
def KeyLt (p q : StrText × Syn) : Prop := strcmp p.1.payload q.1.payload < 0

instance : Std.Irrefl KeyLt where
  irrefl p h := by
    rw [KeyLt, strcmp_self] at h
    exact absurd h (by decide)

instance : Std.Antisymm KeyLt where
  antisymm p q h h' := by
    rw [KeyLt, strcmp_neg] at h'
    unfold KeyLt at h
    omega

/-- The keys of every dictionary are NUL-free and in ascending order. -/
inductive Ascending : Syn → Prop
  | string {s : StrText} : Ascending (.string s)
  | integer {neg : Bool} {digits : List UInt8} : Ascending (.integer neg digits)
  | list {items : List Syn} (h : ∀ t ∈ items, Ascending t) : Ascending (.list items)
  | dict {pairs : List (StrText × Syn)} (hnul : ∀ p ∈ pairs, NulFree p.1.payload)
      (hsorted : pairs.Pairwise KeyLt) (h : ∀ p ∈ pairs, Ascending p.2) : Ascending (.dict pairs)

/-! ## The sorted text of a value -/

/-- Pointers compare by their contents. -/
theorem compares_cmpFuncStr : Compares cmpFuncStr :=
  compares_strcmp fun p : CharPtr => nulFree_cstr p.bytes

/-- A sort by the contents. -/
def contentSort : Qsort := ⟨sortBy cmpFuncStr, sortBy_perm cmpFuncStr⟩

/-- The text of a value with the keys of every dictionary in ascending order. -/
def sortedText (v : BencodeValue) : Syn := describe contentSort v

/-- The keys of a dictionary are sorted by their contents. -/
def SortsContents (qsort : Qsort) : BencodeValue → Prop
  | .string _ _ _ => True
  | .integer _ _ _ => True
  | .list _ _ _ => True
  | .dict t _ _ => (qsort.sort (t.entries.map Prod.fst)).Pairwise fun p q => cmpFuncStr p q < 0

/-- What is written of a dictionary is in ascending order iff the keys are sorted so. -/
theorem pairwise_emitted_iff {t : BencodeDict} (h : t.WF hashFuncStr cmpFuncStr)
    (f : BencodeValue → Syn) :
    ((emitted qsort t).map fun e => (keyText e.1, f e.2)).Pairwise KeyLt ↔
      (qsort.sort (t.entries.map Prod.fst)).Pairwise fun p q => cmpFuncStr p q < 0 := by
  rw [← map_fst_emitted qsort h, List.pairwise_map, List.pairwise_map]
  exact Iff.rfl

/-- **What is written is in ascending order iff the keys of every dictionary are sorted so.** -/
theorem ascending_describe_iff (hheld : v.Forall Held) :
    Ascending (describe qsort v) ↔ v.Forall (SortsContents qsort) := by
  induction v using BencodeValue.induct with
  | hstring s start stop =>
      rw [describe_string]
      exact iff_of_true .string (.string trivial)
  | hinteger n start stop =>
      rw [describe_integer]
      exact iff_of_true .integer (.integer trivial)
  | hlist elems start stop ih =>
      rw [describe_list]
      constructor
      · rintro (_ | _ | h)
        exact .list trivial fun v hv => (ih v hv (hheld.elem v hv)).mp (h _ (List.mem_map_of_mem hv))
      · intro h
        exact .list (List.forall_mem_map.mpr fun v hv => (ih v hv (hheld.elem v hv)).mpr (h.elem v hv))
  | hdict t start stop ih =>
      have hwf := hheld.root.1
      have hperm := emitted_perm qsort hwf
      rw [describe_dict]
      constructor
      · intro h
        cases h with
        | dict hnul hsorted h =>
            refine .dict ((pairwise_emitted_iff hwf _).mp hsorted) fun e he => ?_
            have hmem := List.mem_map_of_mem (f := fun e => (keyText e.1, describe qsort e.2))
              (hperm.mem_iff.mpr he)
            exact (ih e he (hheld.entry e he)).mp (h _ hmem)
      · intro h
        refine .dict ?_ ((pairwise_emitted_iff hwf _).mpr h.root) ?_
        · exact List.forall_mem_map.mpr fun e _ => nulFree_cstr e.1.bytes
        · refine List.forall_mem_map.mpr fun e he => ?_
          have he' := hperm.mem_iff.mp he
          exact (ih e he' (hheld.entry e he')).mpr (h.entry e he')

/-- A sort by the contents sorts the keys so. -/
theorem pairwise_contentSort {t : BencodeDict} (h : t.WF hashFuncStr cmpFuncStr) :
    (contentSort.sort (t.entries.map Prod.fst)).Pairwise fun p q => cmpFuncStr p q < 0 :=
  compares_cmpFuncStr.sorted_of_respects compares_cmpFuncStr (fun _ _ _ _ => id)
    (pairwise_keys h (contentSort.perm _)) (pairwise_sortBy compares_cmpFuncStr _)

/-- The sorted text is in ascending order. -/
theorem ascending_sortedText (hheld : v.Forall Held) : Ascending (sortedText v) := by
  refine (ascending_describe_iff hheld).mpr (hheld.imp fun v hv => ?_)
  cases v with
  | string => trivial
  | integer => trivial
  | list => trivial
  | dict t start stop => exact pairwise_contentSort hv.1

/-! ## Texts and meanings -/

/-- The text of a key is that of its C string. -/
theorem keyText_congr {p q : CharPtr} (h : p.str = q.str) : keyText p = keyText q := by
  rw [keyText, keyText, keyLen, keyLen, h]

/-- Dictionaries that mean the same have the same keys, and under them values that mean the same. -/
theorem exists_mem_of_denote {t t' : BencodeDict} {start stop start' stop' : Int}
    (ht : t.WF hashFuncStr cmpFuncStr) (ht' : t'.WF hashFuncStr cmpFuncStr)
    (h : denote (.dict t start stop) = denote (.dict t' start' stop'))
    {e : CharPtr × BencodeValue} (he : e ∈ t.entries) :
    ∃ e' ∈ t'.entries, e.1.str = e'.1.str ∧ denote e.2 = denote e'.2 := by
  rw [denote_dict, denote_dict, Tree.dict.injEq] at h
  have hsame : cmpFuncStr ⟨0, e.1.str⟩ e.1 = 0 := cmpFuncStr_eq_zero_iff.mpr (cstr_cstr e.1.bytes)
  have hget := congrFun h e.1.str
  rw [Table.get_congr strKeys_lawful hsame, get_of_mem ht he, Option.map_some] at hget
  obtain ⟨v', hv', hdenote⟩ := Option.map_eq_some_iff.mp hget.symm
  rw [ht'.get_eq_lookup strKeys_lawful] at hv'
  obtain ⟨key, hmem, hkey⟩ := exists_mem_of_lookup hv'
  have hstr : e.1.str = key.str :=
    (cmpFuncStr_eq_zero_iff.mp hsame).symm.trans (cmpFuncStr_eq_zero_iff.mp hkey)
  exact ⟨(key, v'), hmem, hstr, hdenote.symm⟩

/-- Lists with the same images under one function have the same images under others, if elements do. -/
theorem map_eq_map_of {α β γ : Type} {f : α → β} {g g' : α → γ} {l l' : List α}
    (h : l.map f = l'.map f) (hg : ∀ x ∈ l, ∀ y ∈ l', f x = f y → g x = g' y) :
    l.map g = l'.map g' := by
  induction l generalizing l' with
  | nil => rw [List.map_eq_nil_iff.mp h.symm, List.map_nil, List.map_nil]
  | cons x l ih =>
      obtain ⟨y, l', rfl, hy, hl'⟩ := List.map_eq_cons_iff.mp h.symm
      have hrest := ih hl'.symm fun x hx y hy =>
        hg x (List.mem_cons_of_mem _ hx) y (List.mem_cons_of_mem _ hy)
      rw [List.map_cons, List.map_cons, hrest, hg x List.mem_cons_self y List.mem_cons_self hy.symm]

/-- Dictionaries that mean the same have the same text, if it is in ascending order and the values have. -/
theorem describe_dict_congr {t t' : BencodeDict} {start stop start' stop' : Int} {qsort' : Qsort}
    (hwf : t.WF hashFuncStr cmpFuncStr) (hwf' : t'.WF hashFuncStr cmpFuncStr)
    (hdenote : denote (.dict t start stop) = denote (.dict t' start' stop'))
    (hsorted : ((emitted qsort t).map fun e => (keyText e.1, describe qsort e.2)).Pairwise KeyLt)
    (hsorted' : ((emitted qsort' t').map fun e => (keyText e.1, describe qsort' e.2)).Pairwise KeyLt)
    (hval : ∀ e ∈ emitted qsort t, ∀ e' ∈ emitted qsort' t', denote e.2 = denote e'.2 →
      describe qsort e.2 = describe qsort' e'.2) :
    describe qsort (.dict t start stop) = describe qsort' (.dict t' start' stop') := by
  have hmem := fun e => (emitted_perm qsort hwf).mem_iff (a := e)
  have hmem' := fun e => (emitted_perm qsort' hwf').mem_iff (a := e)
  rw [describe_dict, describe_dict]
  refine congrArg Syn.dict (hsorted.eq_of_mem_iff hsorted' fun p => ?_)
  rw [List.mem_map, List.mem_map]
  constructor
  · rintro ⟨e, he, rfl⟩
    obtain ⟨e', he', hstr, hsame⟩ := exists_mem_of_denote hwf hwf' hdenote ((hmem e).mp he)
    have he' := (hmem' e').mpr he'
    exact ⟨e', he', Prod.ext (keyText_congr hstr.symm) (hval e he e' he' hsame).symm⟩
  · rintro ⟨e', he', rfl⟩
    obtain ⟨e, he, hstr, hsame⟩ := exists_mem_of_denote hwf' hwf hdenote.symm ((hmem' e').mp he')
    have he := (hmem e).mpr he
    exact ⟨e, he, Prod.ext (keyText_congr hstr.symm) (hval e he e' he' hsame.symm)⟩

/-- **Values that mean the same have the same text**, where it is in ascending order. -/
theorem describe_congr {w : BencodeValue} {qsort' : Qsort} (hheld : v.Forall Held)
    (hsized : v.Forall Sized) (hheld' : w.Forall Held) (hsized' : w.Forall Sized)
    (hdenote : denote v = denote w) (h : Ascending (describe qsort v))
    (h' : Ascending (describe qsort' w)) : describe qsort v = describe qsort' w := by
  induction v using BencodeValue.induct generalizing w with
  | hstring s start stop =>
      cases w with
      | string s' start' stop' =>
          obtain ⟨p, hptr, hlen⟩ := hheld.root.2 hsized.root
          obtain ⟨p', hptr', hlen'⟩ := hheld'.root.2 hsized'.root
          rw [denote_string, denote_string, hptr, hptr'] at hdenote
          have hbytes : p.bytes = p'.bytes := Tree.string.inj hdenote
          rw [describe_string, describe_string, stringText, stringText, hptr, hptr', hlen, hlen']
          show Syn.string ⟨_, p.bytes⟩ = .string ⟨_, p'.bytes⟩
          rw [hbytes]
      | integer => simp at hdenote
      | list => simp at hdenote
      | dict => simp [denote_dict] at hdenote
  | hinteger n start stop =>
      cases w with
      | integer n' start' stop' =>
          rw [denote_integer, denote_integer, Tree.integer.injEq] at hdenote
          rw [describe_integer, describe_integer, hdenote]
      | string => simp at hdenote
      | list => simp at hdenote
      | dict => simp [denote_dict] at hdenote
  | hlist elems start stop ih =>
      cases w with
      | list elems' start' stop' =>
          rw [denote_list, denote_list, Tree.list.injEq] at hdenote
          rw [describe_list] at h h' ⊢
          rw [describe_list]
          cases h with
          | list h =>
              cases h' with
              | list h' =>
                  refine congrArg Syn.list (map_eq_map_of hdenote fun v hv w hw hvw => ?_)
                  exact ih v hv (hheld.elem v hv) (hsized.elem v hv) (hheld'.elem w hw)
                    (hsized'.elem w hw) hvw (h _ (List.mem_map_of_mem hv))
                    (h' _ (List.mem_map_of_mem hw))
      | string => simp at hdenote
      | integer => simp at hdenote
      | dict => simp [denote_dict] at hdenote
  | hdict t start stop ih =>
      cases w with
      | dict t' start' stop' =>
          have hwf := hheld.root.1
          have hwf' := hheld'.root.1
          rw [describe_dict] at h h'
          cases h with
          | dict hnul hsorted h =>
              cases h' with
              | dict hnul' hsorted' h' =>
                  refine describe_dict_congr hwf hwf' hdenote hsorted hsorted' fun e he e' he' hval => ?_
                  have het := (emitted_perm qsort hwf).mem_iff.mp he
                  have het' := (emitted_perm qsort' hwf').mem_iff.mp he'
                  exact ih e het (hheld.entry e het) (hsized.entry e het) (hheld'.entry e' het')
                    (hsized'.entry e' het') hval (h _ (List.mem_map_of_mem he))
                    (h' _ (List.mem_map_of_mem he'))
      | string => simp [denote_dict] at hdenote
      | integer => simp [denote_dict] at hdenote
      | list => simp [denote_dict] at hdenote

/-! ## Canonical texts -/

/-- The number of an integer in a text. -/
def signed (neg : Bool) (digits : List UInt8) : Int :=
  if neg then -(decimal digits : Int) else decimal digits

/-- The integers of a tree are `int`s. -/
def InRange : Syn → Prop := Derives (fun _ => True) fun neg digits => FitsInt (signed neg digits)

/-- A canonical text: well formed, with NUL-free keys in ascending order and integers that are `int`s. -/
structure CanonicalText (t : Syn) : Prop where
  /-- Numerals are canonical, and payloads as long as they say. -/
  wellFormed : WellFormed t
  /-- Keys are NUL-free and in ascending order. -/
  ascending : Ascending t
  /-- Integers are `int`s. -/
  inRange : InRange t

/-- The numeral of a length is what is printed of it. -/
theorem StrText.WellFormed.itoa_length {s : StrText} (h : s.WellFormed) :
    itoa s.payload.length = s.digits := by
  rw [itoa_natCast, ← h.2, printNat_decimal h.1]

/-- The text of the string of a text. -/
theorem stringText_value {s : StrText} (hs : s.Spelled) (hwf : s.WellFormed) (off : Nat) :
    stringText (s.value place off) = s := by
  rw [hs.value_eq hwf.2, stringText, hwf.itoa_length]
  rfl

/-- The text of the pointer to a key. -/
theorem keyText_ptr {s : StrText} (hs : s.Spelled) (hwf : s.WellFormed) (hnul : NulFree s.payload)
    (off : Nat) : keyText (s.ptr place off) = s := by
  have hlen := hs.len_eq hwf.2
  have hfits : FitsInt s.len := fitsInt_numeral s.digits
  rw [hlen] at hfits
  have hstr : (s.ptr place off).str = s.payload := cstr_of_nulFree hnul
  rw [keyText, keyLen, hstr, wrap32_of_fits hfits, hwf.itoa_length]

/-- The text of the integer of a text. -/
theorem integerSyn_integerOf {neg : Bool} {digits : List UInt8} (hcanonical : Canonical digits)
    (hzero : neg = true → digits ≠ [48]) (hfits : FitsInt (signed neg digits)) :
    integerSyn (integerOf neg digits) = .integer neg digits := by
  have habs : (signed neg digits).natAbs = decimal digits := by
    unfold signed
    split_ifs <;> omega
  have hsign : decide (signed neg digits < 0) = neg := by
    cases neg with
    | false => simp [signed]
    | true =>
        have hne : decimal digits ≠ 0 := by
          intro hdec
          have hprint := printNat_decimal hcanonical
          rw [hdec] at hprint
          exact hzero rfl hprint.symm
        rw [signed, if_pos rfl, decide_eq_true_iff]
        omega
  have hread := integerOf_printNat (signed neg digits)
  rw [habs, hsign, printNat_decimal hcanonical, wrap32_of_fits hfits] at hread
  rw [hread, integerSyn, wrap32_of_fits hfits, hsign, habs, printNat_decimal hcanonical]

/-- The keys of a dictionary in ascending order are distinct C strings. -/
theorem pairwise_cstr_ne {pairs : List (StrText × Syn)} (hnul : ∀ p ∈ pairs, NulFree p.1.payload)
    (hsorted : pairs.Pairwise KeyLt) :
    pairs.Pairwise fun p q => cstr p.1.payload ≠ cstr q.1.payload := by
  refine hsorted.imp_of_mem fun {p q} hp hq hlt heq => ?_
  rw [cstr_of_nulFree (hnul p hp), cstr_of_nulFree (hnul q hq)] at heq
  rw [KeyLt, heq, strcmp_self] at hlt
  exact absurd hlt (by decide)

/-- **The sorted text of what is parsed from a canonical text is that text.** -/
theorem sortedText_value {t : Syn} (hwf : WellFormed t) (hascending : Ascending t)
    (hrange : InRange t) (hspelled : Spelled t) (off : Nat) :
    sortedText (t.value place off) = t := by
  unfold sortedText
  induction hspelled generalizing off with
  | string hs =>
      cases hwf with
      | string hwf => rw [Syn.value, describe_string, stringText_value hs hwf]
  | integer hd =>
      cases hwf with
      | integer hwf =>
          cases hrange with
          | integer hfits => rw [Syn.value, describe_integer, integerSyn_integerOf hwf.1 hwf.2 hfits]
  | @list items hs ih =>
      cases hwf with
      | list hwf =>
          cases hascending with
          | list hascending =>
              cases hrange with
              | list hrange =>
                  have hitems := @map_valueItems place _ _ (describe contentSort) id id items
                    (fun t ht off => ih t ht (hwf t ht) (hascending t ht) (hrange t ht) off) (off + 1)
                  rw [List.map_id] at hitems
                  rw [Syn.value, describe_list, hitems]
  | @dict pairs hkeys hs ih =>
      cases hwf with
      | dict hwfKeys hwf =>
          cases hascending with
          | dict hnul hsorted hascending =>
              cases hrange with
              | dict _ hrange =>
                  have htable : (tableOf place (off + 1) pairs Table.init).WF hashFuncStr cmpFuncStr :=
                    wf_tableOf Table.WF.init
                  have hpairs := @map_entriesOf place _ _
                    (fun e => (keyText e.1, describe contentSort e.2)) id id pairs
                    (fun p hp off off' => Prod.ext
                      (keyText_ptr (hkeys p hp).toSpelled (hwfKeys p hp) (hnul p hp) off)
                      (ih p hp (hwf p hp) (hascending p hp) (hrange p hp) off')) (off + 1)
                  rw [List.map_id] at hpairs
                  have hperm := ((emitted_perm contentSort htable).trans
                    (entries_tableOf (pairwise_cstr_ne hnul hsorted))).map
                      fun e => (keyText e.1, describe contentSort e.2)
                  rw [hpairs] at hperm
                  have hemitted := (pairwise_emitted_iff htable (describe contentSort)).mpr
                    (pairwise_contentSort htable)
                  rw [Syn.value, describe_dict]
                  exact congrArg Syn.dict (hemitted.eq_of_mem_iff hsorted fun p => hperm.mem_iff)

/-- The strings of what is parsed from a canonical text count their bytes, the dictionaries their
entries. -/
theorem forall_sized_value {t : Syn} (hwf : WellFormed t) (hascending : Ascending t)
    (hspelled : Spelled t) (hfits : (t.bytes.length : Int) ≤ intMax) (off : Nat) :
    (t.value place off).Forall Sized := by
  induction hspelled generalizing off with
  | @string s hs =>
      cases hwf with
      | string hwf =>
          rw [Syn.value, hs.value_eq hwf.2]
          exact .string (Int.natCast_nonneg _)
  | integer hd =>
      rw [Syn.value]
      exact .integer trivial
  | @list items hs ih =>
      cases hwf with
      | list hwf =>
          cases hascending with
          | list hascending =>
              rw [Syn.bytes, List.length_cons, List.length_append] at hfits
              rw [Syn.value]
              refine .list trivial (forall_mem_valueItems (fun t ht off => ?_) _)
              have hle := length_le_of_mem_items ht
              exact ih t ht (hwf t ht) (hascending t ht) (by push_cast at hfits; omega) off
  | @dict pairs hkeys hs ih =>
      cases hwf with
      | dict _ hwf =>
          cases hascending with
          | dict hnul hsorted hascending =>
              rw [Syn.bytes, List.length_cons, List.length_append] at hfits
              push_cast at hfits
              rw [Syn.value]
              refine .dict ?_ (forall_mem_tableOf (fun p hp off => ?_) _)
              · have hlength : (entriesOf place (off + 1) pairs).length = pairs.length := by
                  have hmap := congrArg List.length (@map_bytes_entriesOf place (off + 1) pairs)
                  rwa [List.length_map, List.length_map] at hmap
                have hle := length_le_bytesPairs pairs
                have hcount := length_entries_foldl_put (@distinct_entriesOf place pairs
                  (pairwise_cstr_ne hnul hsorted) (off + 1)) (by rw [hlength]; omega)
                rw [← tableOf_eq_foldl] at hcount
                exact hcount
              · have hle := length_le_of_mem_pairs hp
                exact ih p hp (hwf p hp) (hascending p hp) (by omega) off

/-! ## What `qsort` may do -/

/-- The bytes of the addresses are a comparison, if not that of the contents. -/
theorem compares_keyCmp : Compares keyCmp :=
  compares_strcmp fun p : CharPtr => nulFree_cstr (leBytes64 (UInt64.ofNat p.addr))

/-- A sort by the comparison that is given, and against the contents where it leaves a choice. -/
def adverseSort : Qsort :=
  ⟨sortBy (thenBy keyCmp fun p q => cmpFuncStr q p), sortBy_perm _⟩

/-- `qsort` may do that. -/
theorem adverseSort_lawful : adverseSort.Lawful := fun keys =>
  (pairwise_sortBy (compares_keyCmp.thenBy compares_cmpFuncStr.reverse) keys).imp fun {p q} hle => by
    rcases thenBy_le_iff.mp hle with hlt | ⟨heq, -⟩
    · exact Int.le_of_lt hlt
    · exact Int.le_of_eq heq

/-- The addresses of the keys of a dictionary compare as their contents: where one key comes before
another, the bytes of its address do, the least significant first and up to the first zero. -/
def Placed : BencodeValue → Prop
  | .string _ _ _ => True
  | .integer _ _ _ => True
  | .list _ _ _ => True
  | .dict t _ _ => Respects keyCmp cmpFuncStr (t.entries.map Prod.fst)

/-- Keys that are placed are sorted by their contents. -/
theorem sortsContents_of_placed (hlawful : qsort.Lawful) (hheld : Held v) (hplaced : Placed v) :
    SortsContents qsort v := by
  cases v with
  | string => trivial
  | integer => trivial
  | list => trivial
  | dict t start stop =>
      have hperm := qsort.perm (t.entries.map Prod.fst)
      have hrespects : Respects keyCmp cmpFuncStr (qsort.sort (t.entries.map Prod.fst)) :=
        fun p hp q hq => hplaced p (hperm.mem_iff.mp hp) q (hperm.mem_iff.mp hq)
      exact compares_keyCmp.sorted_of_respects compares_cmpFuncStr hrespects
        (pairwise_keys hheld.1 hperm) (hlawful _)

/-- Keys that are sorted by their contents whatever `qsort` does are placed. -/
theorem placed_of_sortsContents (h : SortsContents adverseSort v) : Placed v := by
  cases v with
  | string => trivial
  | integer => trivial
  | list => trivial
  | dict t start stop => exact respects_of_sorted compares_keyCmp compares_cmpFuncStr h

/-- What is written of placed keys is in ascending order. -/
theorem ascending_describe (hlawful : qsort.Lawful) (hheld : v.Forall Held)
    (hplaced : v.Forall Placed) : Ascending (describe qsort v) :=
  (ascending_describe_iff hheld).mpr
    ((hheld.and hplaced).imp fun _ h => sortsContents_of_placed hlawful h.1 h.2)

/-- If the text is in ascending order whatever `qsort` does, the keys are placed. -/
theorem forall_placed_of_ascending (hheld : v.Forall Held) (h : Ascending (describe adverseSort v)) :
    v.Forall Placed :=
  ((ascending_describe_iff hheld).mp h).imp fun _ => placed_of_sortsContents

/-- What is written is known by its bytes. -/
theorem describe_eq_of_bytes (hheld : v.Forall Held) (hsized : v.Forall Sized) {t : Syn}
    (hwf : WellFormed t) (h : (describe qsort v).bytes = t.bytes) : describe qsort v = t := by
  have hlax := (wellFormed_describe qsort hheld hsized).padded.lax
  exact (hlax.append_inj hwf.padded.lax (congrArg (· ++ []) h)).1

/-! ## Two keys in memory -/

/-- `d1:ai1e1:bi2ee` is canonical. -/
theorem canonicalText_ab : CanonicalText (.dict abPairs) where
  wellFormed := wellFormed_ab
  ascending := by
    refine .dict (by decide) ?_ ?_
    · simp only [abPairs, List.pairwise_pair]
      show strcmp [97] [98] < 0
      decide
    · exact forall_mem_pair .integer .integer
  inRange := by
    refine .dict (fun _ _ => trivial) ?_
    exact forall_mem_pair (.integer (by decide)) (.integer (by decide))

/-- It is parsed. -/
theorem bencodeParse_ab (place : Nat → Addr) :
    bencodeParse (only (Syn.dict abPairs).bytes) 14 place =
      .ok ((Syn.dict abPairs).value place 0) 14 :=
  @bParseAny_complete _ 14 place _ (wellFormed_ab.padded.lax.spelled (by decide)) 15 (by decide) 0
    (reads_only _) (by decide)

/-- The keys of the dictionary. -/
theorem perm_abKeys (place : Nat → Addr) :
    ((tableOf place 1 abPairs Table.init).entries.map Prod.fst).Perm
      [⟨place 3, [97]⟩, ⟨place 9, [98]⟩] := by
  have hperm := (@entries_tableOf place 1 abPairs (by decide)).map Prod.fst
  exact hperm

/-- The keys are placed iff the address of the first is. -/
theorem forall_placed_ab (place : Nat → Addr) :
    ((Syn.dict abPairs).value place 0).Forall Placed ↔
      keyCmp ⟨place 3, [97]⟩ ⟨place 9, [98]⟩ < 0 := by
  have hmem := fun p => (perm_abKeys place).mem_iff (a := p)
  have hlt : cmpFuncStr ⟨place 3, [97]⟩ ⟨place 9, [98]⟩ < 0 := by
    show strcmp [97] [98] < 0
    decide
  have hgt : ¬ cmpFuncStr ⟨place 9, [98]⟩ ⟨place 3, [97]⟩ < 0 := by
    show ¬ strcmp [98] [97] < 0
    decide
  rw [Syn.value]
  constructor
  · intro h
    exact h.root _ ((hmem _).mpr List.mem_cons_self) _
      ((hmem _).mpr (List.mem_cons_of_mem _ List.mem_cons_self)) hlt
  · intro h
    refine .dict ?_ (forall_mem_tableOf ?_ _)
    · intro p hp q hq hpq
      have hp := (hmem p).mp hp
      have hq := (hmem q).mp hq
      simp only [List.mem_cons, List.not_mem_nil, or_false] at hp hq
      rcases hp with rfl | rfl
      · rcases hq with rfl | rfl
        · exact absurd hpq (by rw [compares_cmpFuncStr.self]; decide)
        · exact h
      · rcases hq with rfl | rfl
        · exact absurd hpq hgt
        · exact absurd hpq (by rw [compares_cmpFuncStr.self]; decide)
    · refine forall_mem_pair (fun off => ?_) fun off => ?_
      · rw [Syn.value]
        exact .integer trivial
      · rw [Syn.value]
        exact .integer trivial

/-- Its integers are not the smallest. -/
theorem intMins_ab (place : Nat → Addr) : intMins ((Syn.dict abPairs).value place 0) = 0 := by
  have hperm := (@entries_tableOf place 1 abPairs (by decide)).map fun e => intMins e.2
  have hmap := @map_entriesOf place _ _ (fun e => intMins e.2) (fun _ => 0) id abPairs ?_ 1
  · rw [List.map_id] at hmap
    rw [Syn.value, intMins_dict, hperm.sum_eq, hmap]
    rfl
  · refine forall_mem_pair (fun off off' => ?_) fun off off' => ?_
    · show intMins (Syn.value place off' (.integer false [49])) = 0
      rw [Syn.value, intMins_integer]
      decide
    · show intMins (Syn.value place off' (.integer false [50])) = 0
      rw [Syn.value, intMins_integer]
      decide

/-! ## Canonical encoding -/

/-- However `qsort` uses the comparison it is given, what is written is a well-formed text with the keys
of every dictionary in ascending order. -/
def EmitsAscending (v : BencodeValue) : Prop :=
  ∀ qsort : Qsort, qsort.Lawful →
    ∃ t, WellFormed t ∧ Ascending t ∧ ∀ b, bToString qsort v b = b.write t.bytes

/-- However `qsort` uses the comparison it is given, the same bytes are written of two values. -/
def WrittenAlike (v w : BencodeValue) : Prop :=
  ∀ qsort qsort' : Qsort, qsort.Lawful → qsort'.Lawful →
    ∀ b, bToString qsort v b = bToString qsort' w b

/-- However `qsort` uses the comparison it is given, a value is encoded as a text. -/
def EncodedAs (v : BencodeValue) (t : Syn) : Prop :=
  ∀ qsort : Qsort, qsort.Lawful →
    bencodeToString qsort v = some ((t.bytes.length : Int), t.bytes ++ [0])

/-- What can be written in ascending order whatever `qsort` does has its keys placed. -/
theorem forall_placed_of_written (hheld : v.Forall Held) {t : Syn} (hwf : WellFormed t)
    (hascending : Ascending t) (h : ∀ b, bToString adverseSort v b = b.write t.bytes) :
    v.Forall Sized ∧ v.Forall Placed := by
  have hroom : t.bytes.length ≤ (Buffer.ofBlock (List.replicate t.bytes.length 0)).rest.length := by
    rw [Buffer.ofBlock, List.length_replicate]
  have hwrite := (h _).trans (Buffer.write_eq_some_iff.mpr ⟨hroom, rfl⟩)
  have hsized := forall_sized_of_bToString hheld hwrite
  have hbytes : (describe adverseSort v).bytes = t.bytes :=
    Buffer.eq_of_write fun b => (bToString_eq hheld hsized b).symm.trans (h b)
  rw [← describe_eq_of_bytes hheld hsized hwf hbytes] at hascending
  exact ⟨hsized, forall_placed_of_ascending hheld hascending⟩

/-- Keys are written in ascending order iff dictionaries count their entries, no length is negative and
the keys are placed. -/
theorem emitsAscending_of_held (hheld : v.Forall Held) :
    EmitsAscending v ↔ v.Forall Sized ∧ v.Forall Placed := by
  constructor
  · intro h
    obtain ⟨t, hwf, hascending, hwrite⟩ := h adverseSort adverseSort_lawful
    exact forall_placed_of_written hheld hwf hascending hwrite
  · rintro ⟨hsized, hplaced⟩ qsort hlawful
    exact ⟨describe qsort v, wellFormed_describe qsort hheld hsized,
      ascending_describe hlawful hheld hplaced, bToString_eq hheld hsized⟩

/-- Where one of two values that mean the same has its keys placed, the same is written of both iff the
other has. -/
theorem writtenAlike_of_held {w : BencodeValue} (hheld : v.Forall Held) (hheld' : w.Forall Held)
    (hdenote : denote v = denote w) (hsized' : w.Forall Sized) (hplaced' : w.Forall Placed) :
    WrittenAlike v w ↔ v.Forall Sized ∧ v.Forall Placed := by
  constructor
  · intro h
    refine forall_placed_of_written hheld (wellFormed_describe adverseSort hheld' hsized')
      (ascending_describe adverseSort_lawful hheld' hplaced') fun b => ?_
    rw [h adverseSort adverseSort adverseSort_lawful adverseSort_lawful, bToString_eq hheld' hsized']
  · rintro ⟨hsized, hplaced⟩ qsort qsort' hlawful hlawful' b
    rw [bToString_eq hheld hsized, bToString_eq hheld' hsized',
      describe_congr hheld hsized hheld' hsized' hdenote (ascending_describe hlawful hheld hplaced)
        (ascending_describe hlawful' hheld' hplaced')]

/-- A value whose sorted text is no longer than an `int` says is encoded as that text iff its keys are
placed, it has no smallest `int`, and the text is shorter than the largest `int`. -/
theorem encodedAs_of_held (hheld : v.Forall Held) (hsized : v.Forall Sized)
    (hfits : ((sortedText v).bytes.length : Int) ≤ intMax) :
    EncodedAs v (sortedText v) ↔
      v.Forall Placed ∧ intMins v = 0 ∧ ((sortedText v).bytes.length : Int) < intMax := by
  have hlength : (sortedText v).bytes.length = encodedLength v :=
    length_describe contentSort hheld hsized
  have hascending := ascending_sortedText hheld
  unfold EncodedAs
  rw [hlength] at hfits ⊢
  constructor
  · intro h
    have hencode := h adverseSort adverseSort_lawful
    have hmins := bToStringLen_eq hheld hsized
    rw [bToStringLen_of_bencodeToString hencode] at hmins
    have hzero := eq_zero_of_wrap32 (intMins_le v) hfits hmins
    have hplain := forall_plain_iff.mpr ⟨hsized, hzero⟩
    have hlt := lt_intMax_of_bencodeToString hheld hplain hfits hencode
    rw [bencodeToString_eq hheld hplain hlt, Option.some.injEq, Prod.mk.injEq] at hencode
    have hbytes := List.append_cancel_right hencode.2
    have heq := describe_eq_of_bytes hheld hsized (wellFormed_describe contentSort hheld hsized) hbytes
    refine ⟨forall_placed_of_ascending hheld ?_, hzero, hlt⟩
    rw [heq]
    exact hascending
  · rintro ⟨hplaced, hzero, hlt⟩ qsort hlawful
    have hplain := forall_plain_iff.mpr ⟨hsized, hzero⟩
    rw [bencodeToString_eq hheld hplain hlt,
      describe_congr hheld hsized hheld hsized rfl (ascending_describe hlawful hheld hplaced) hascending]
    rfl

/-- **Encoding is canonical iff the keys of dictionaries are placed.** What is written of a value in
memory is in ascending order exactly then; it is what is written of other placed values that mean the same
exactly then; and a canonical text, parsed from any memory, is encoded as itself exactly then, if it has
no smallest `int` and is shorter than the largest `int`. -/
theorem canonical_iff (hheld : v.Forall Held) (string : Nat → Option UInt8) (place : Nat → Addr) :
    (EmitsAscending v ↔ v.Forall Sized ∧ v.Forall Placed) ∧
    (∀ w : BencodeValue, w.Forall Held → denote v = denote w → w.Forall Sized → w.Forall Placed →
      (WrittenAlike v w ↔ v.Forall Sized ∧ v.Forall Placed)) ∧
    (∀ t : Syn, CanonicalText t → (t.bytes.length : Int) ≤ intMax → Reads string 0 t.bytes →
      ∃ u, bencodeParse string t.bytes.length place = .ok u t.bytes.length ∧
        (EncodedAs u t ↔
          u.Forall Placed ∧ intMins u = 0 ∧ (t.bytes.length : Int) < intMax)) := by
  refine ⟨emitsAscending_of_held hheld, fun w => writtenAlike_of_held hheld, ?_⟩
  intro t ht hfits hr
  have hspelled : Spelled t := ht.wellFormed.padded.lax.spelled hfits
  have hparse := @bParseAny_complete string t.bytes.length place t hspelled (t.bytes.length + 1)
    (by omega) 0 hr (by omega)
  rw [Nat.zero_add] at hparse
  have hheld := held_of_bencodeParse hparse
  have hsized := @forall_sized_value place t ht.wellFormed ht.ascending hspelled hfits 0
  have hsorted := @sortedText_value place t ht.wellFormed ht.ascending ht.inRange hspelled 0
  have hencoded := encodedAs_of_held hheld hsized (by rwa [hsorted])
  rw [hsorted] at hencoded
  exact ⟨_, hparse, hencoded⟩

/-- `canonical_iff` on `d1:ai1e1:bi2ee`, the copies of the keys in memory where they are in the text. -/
theorem canonical_iff_example :
    ∃ v, bencodeParse (only (Syn.dict abPairs).bytes) 14 (fun i => Fin.ofNat _ i) = .ok v 14 ∧
      EmitsAscending v ∧ WrittenAlike v v ∧ EncodedAs v (.dict abPairs) := by
  have hparse := bencodeParse_ab fun i => Fin.ofNat _ i
  have hheld := held_of_bencodeParse hparse
  have hplaced := (forall_placed_ab fun i => Fin.ofNat _ i).mpr (by decide)
  have hsized := @forall_sized_value (fun i => Fin.ofNat _ i) _ wellFormed_ab canonicalText_ab.ascending
    (wellFormed_ab.padded.lax.spelled (by decide)) (by decide) 0
  obtain ⟨hascending, halike, hcanonical⟩ :=
    canonical_iff hheld (only (Syn.dict abPairs).bytes) fun i => Fin.ofNat _ i
  obtain ⟨v, hv, hencoded⟩ := hcanonical _ canonicalText_ab (by decide) (reads_only _)
  obtain rfl := (Result.ok.inj (hparse.symm.trans hv)).1
  exact ⟨_, hparse, hascending.mpr ⟨hsized, hplaced⟩,
    (halike _ hheld rfl hsized hplaced).mpr ⟨hsized, hplaced⟩,
    hencoded.mpr ⟨hplaced, intMins_ab _, by decide⟩⟩

/-- **Two keys the other way round in memory.** The copy of the second key of `d1:ai1e1:bi2ee` is below
that of the first. The text is canonical; what is written of its value need not be in ascending order, nor
the text. -/
theorem keys_swapped :
    CanonicalText (.dict abPairs) ∧
      ∃ v, bencodeParse (only (Syn.dict abPairs).bytes) 14 (fun i => Fin.ofNat _ (64 - i)) = .ok v 14 ∧
        v.Forall Held ∧ ¬ EmitsAscending v ∧ ¬ EncodedAs v (.dict abPairs) := by
  have hparse := bencodeParse_ab fun i => Fin.ofNat _ (64 - i)
  have hheld := held_of_bencodeParse hparse
  have hspelled : Spelled (.dict abPairs) := wellFormed_ab.padded.lax.spelled (by decide)
  have hsized := @forall_sized_value (fun i => Fin.ofNat _ (64 - i)) _ wellFormed_ab
    canonicalText_ab.ascending hspelled (by decide) 0
  have hsorted := @sortedText_value (fun i => Fin.ofNat _ (64 - i)) _ wellFormed_ab
    canonicalText_ab.ascending canonicalText_ab.inRange hspelled 0
  have hnot : ¬ ((Syn.dict abPairs).value (fun i => Fin.ofNat _ (64 - i)) 0).Forall Placed := by
    rw [forall_placed_ab]
    decide
  have hencoded := encodedAs_of_held hheld hsized (by rw [hsorted]; decide)
  rw [hsorted] at hencoded
  exact ⟨canonicalText_ab, _, hparse, hheld, fun h => hnot ((emitsAscending_of_held hheld).mp h).2,
    fun h => hnot (hencoded.mp h).1⟩

end Flood.Bencode
