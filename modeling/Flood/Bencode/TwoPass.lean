import Mathlib.Algebra.Order.BigOperators.Group.List
import Flood.Bencode.Keys

/-!
# The two passes of the encoder

One pass computes the length of the text, the other writes it.

* `bToStringLen_eq` — the length computed is that of the text, modulo `2 ^ 32` and less by ten for each
  smallest `int`.
* `TextAt.held` — what is parsed is held in memory as the encoder expects.
* `TwoPassAgrees qsort v` — the text is written into the block allocated for it, and is as long as
  computed.
* `Plain` — a node with which both passes do the same.
* `twoPassAgrees_iff` — for a parsed value, they agree iff its nodes are plain and its text is shorter
  than the largest `int`; `key_twice` — with a key that was there twice, they do not.
-/

namespace Flood.Bencode

open Flood.Lib Flood.Hashtable

variable {qsort : Qsort} {v : BencodeValue}

/-! ## The first pass -/

/-- Lengths that wrap add up to the length that wraps. -/
theorem sumLen_map {α : Type} {g f : α → Int} {l : List α} (h : ∀ x ∈ l, g x = wrap32 (f x)) :
    sumLen (l.map g) = wrap32 (l.map f).sum := by
  have hfrom : ∀ a : Int, (l.map g).foldl (fun sum len => wrap32 (sum + len)) (wrap32 a) =
      wrap32 (a + (l.map f).sum) := by
    induction l with
    | nil =>
        intro a
        rw [List.map_nil, List.map_nil, List.foldl_nil, List.sum_nil, Int.add_zero]
    | cons x l ih =>
        intro a
        obtain ⟨hx, hl⟩ := List.forall_mem_cons.mp h
        rw [List.map_cons, List.map_cons, List.foldl_cons, List.sum_cons, hx, wrap32_wrap32_add,
          wrap32_add_wrap32, ih hl, Int.add_assoc]
  have hzero := hfrom 0
  rwa [Int.zero_add] at hzero

/-- A sum of differences. -/
theorem sum_map_sub {α : Type} (f g : α → Nat) (l : List α) :
    (l.map fun x => (f x : Int) - 10 * g x).sum = ((l.map f).sum : Nat) - 10 * ((l.map g).sum : Nat) := by
  induction l with
  | nil => rfl
  | cons x l ih =>
      rw [List.map_cons, List.map_cons, List.map_cons, List.sum_cons, List.sum_cons, List.sum_cons, ih]
      push_cast
      ring

/-- The length of what stands between two bytes. -/
theorem wrap32_between (n : Int) : wrap32 (1 + wrap32 n + 1) = wrap32 (n + 2) := by
  rw [show 1 + wrap32 n + 1 = wrap32 n + 2 by ring, wrap32_wrap32_add]

/-- An `int` has eleven characters at most. -/
theorem length_itoa_le {n : Int} (h : FitsInt n) : (itoa n).length ≤ 11 := by
  unfold FitsInt intMin intMax at h
  have hdigits := @length_printNat_le n.natAbs 10 (by decide) (by norm_num; omega)
  unfold itoa
  rw [List.length_append]
  split_ifs
  · rw [List.length_singleton]
    omega
  · rw [List.length_nil]
    omega

@[simp] theorem bToStringLen_string (s : BencodeString) (start stop : Int) :
    bToStringLen (.string s start stop) = wrap32 (declen s.len + 1 + s.len) :=
  BencodeValue.fold_string s start stop

@[simp] theorem bToStringLen_integer (n start stop : Int) :
    bToStringLen (.integer n start stop) = 1 + declen (wrap32 n) + 1 :=
  BencodeValue.fold_integer n start stop

@[simp] theorem bToStringLen_list (elems : List BencodeValue) (start stop : Int) :
    bToStringLen (.list elems start stop) = wrap32 (1 + sumLen (elems.map bToStringLen) + 1) :=
  BencodeValue.fold_list elems start stop

/-- The length of a dictionary. -/
theorem bToStringLen_dict (t : BencodeDict) (start stop : Int) :
    bToStringLen (.dict t start stop) =
      wrap32 (1 + sumLen (t.entries.map fun e => pairLen e.1 (bToStringLen e.2)) + 1) := by
  have hpairs : (fun e : CharPtr × Int => pairLen e.1 e.2) ∘ Prod.map id bToStringLen =
      fun e : CharPtr × BencodeValue => pairLen e.1 (bToStringLen e.2) := by
    funext e
    rw [Function.comp_apply, Prod.map_fst, Prod.map_snd, id]
  rw [bToStringLen, BencodeValue.fold_dict, ← bToStringLen, Table.entries_map, List.map_map, hpairs]

/-- The length of a key and a value, from that of the value modulo `2 ^ 32`. -/
theorem pairLen_eq {key : CharPtr} (hkey : (key.str.length : Int) ≤ intMax) (n : Int) :
    pairLen key (wrap32 n) = wrap32 ((keyText key).bytes.length + n) := by
  have hlen : keyLen key = key.str.length := wrap32_natCast hkey
  have hfits : FitsInt key.str.length := fitsInt_natCast hkey
  have hmin : (key.str.length : Int) ≠ intMin := by unfold intMin; omega
  rw [pairLen, wrap32_add_wrap32, length_bytes_str, keyText, hlen, declen_eq hfits, if_neg hmin,
    Int.sub_zero]
  push_cast
  rfl

/-- **The length computed by `b_to_string_len`** is that of the text, modulo `2 ^ 32` and less by ten
for each smallest `int`. -/
theorem bToStringLen_eq (hheld : v.Forall Held) (hsized : v.Forall Sized) :
    bToStringLen v = wrap32 (encodedLength v - 10 * intMins v) := by
  induction v using BencodeValue.induct with
  | hstring s start stop =>
      have hpos := hsized.root
      have hfits := hheld.root.1
      unfold Sized at hpos
      have hmin : s.len ≠ intMin := by unfold intMin; omega
      rw [bToStringLen_string, encodedLength_string, intMins_string, declen_eq hfits, if_neg hmin]
      refine congrArg wrap32 ?_
      push_cast
      omega
  | hinteger n start stop =>
      have hfits := fitsInt_wrap32 n
      rw [bToStringLen_integer, encodedLength_integer, intMins_integer, declen_eq hfits]
      generalize wrap32 n = n at hfits
      have hle := length_itoa_le hfits
      have hpos : 1 ≤ (itoa n).length := by
        have := List.length_pos_iff.mpr (printNat_ne_nil n.natAbs)
        unfold itoa
        rw [List.length_append]
        omega
      refine Eq.symm ((wrap32_of_fits ?_).trans ?_)
      · unfold FitsInt intMin intMax
        split_ifs <;> push_cast <;> omega
      · split_ifs <;> push_cast <;> omega
  | hlist elems start stop ih =>
      have hsum := sumLen_map (g := bToStringLen)
        fun v hv => ih v hv (hheld.elem v hv) (hsized.elem v hv)
      rw [bToStringLen_list, encodedLength_list, intMins_list, hsum, sum_map_sub, wrap32_between]
      refine congrArg wrap32 ?_
      push_cast
      ring
  | hdict t start stop ih =>
      obtain ⟨-, hkeys⟩ := hheld.root
      have hpair : ∀ e ∈ t.entries, pairLen e.1 (bToStringLen e.2) =
          wrap32 (((keyText e.1).bytes.length + encodedLength e.2 : Nat) - 10 * intMins e.2) := by
        intro e he
        rw [ih e he (hheld.entry e he) (hsized.entry e he), pairLen_eq (hkeys e he)]
        refine congrArg wrap32 ?_
        push_cast
        ring
      rw [bToStringLen_dict, encodedLength_dict, intMins_dict, sumLen_map hpair, sum_map_sub,
        wrap32_between]
      refine congrArg wrap32 ?_
      push_cast
      ring

/-- A smallest `int` is thirteen bytes of the text. -/
theorem intMins_le (v : BencodeValue) : 13 * intMins v ≤ encodedLength v := by
  induction v using BencodeValue.induct with
  | hstring s start stop =>
      rw [intMins_string]
      omega
  | hinteger n start stop =>
      rw [intMins_integer, encodedLength_integer]
      split_ifs with hmin
      · rw [hmin]
        decide
      · omega
  | hlist elems start stop ih =>
      rw [intMins_list, encodedLength_list, ← List.sum_map_mul_left]
      have := List.sum_le_sum ih
      omega
  | hdict t start stop ih =>
      rw [intMins_dict, encodedLength_dict, ← List.sum_map_mul_left]
      have := List.sum_le_sum (l := t.entries)
        (g := fun e => (keyText e.1).bytes.length + encodedLength e.2)
        fun e he => (ih e he).trans (Nat.le_add_left _ _)
      omega

/-! ## Both passes -/

/-- A node with which both passes do the same: a length that is not negative, an integer that is, as an
`int`, not the smallest one, a dictionary that counts its entries. -/
def Plain : BencodeValue → Prop
  | .string s _ _ => 0 ≤ s.len
  | .integer n _ _ => wrap32 n ≠ intMin
  | .list _ _ _ => True
  | .dict t _ _ => (t.entries.length : Int) = t.size

/-- Values with plain nodes are sized and have no smallest `int`. -/
theorem forall_plain_iff : v.Forall Plain ↔ v.Forall Sized ∧ intMins v = 0 := by
  induction v using BencodeValue.induct with
  | hstring s start stop =>
      rw [intMins_string]
      exact ⟨fun h => ⟨.string h.root, rfl⟩, fun h => .string h.1.root⟩
  | hinteger n start stop =>
      rw [intMins_integer]
      constructor
      · intro h
        have hne : wrap32 n ≠ intMin := h.root
        exact ⟨.integer trivial, if_neg hne⟩
      · rintro ⟨-, hzero⟩
        refine .integer fun hmin => ?_
        rw [if_pos hmin] at hzero
        exact one_ne_zero hzero
  | hlist elems start stop ih =>
      rw [intMins_list, List.sum_eq_zero_iff_forall_eq_nat, List.forall_mem_map]
      constructor
      · intro h
        have hboth := fun v hv => (ih v hv).mp (h.elem v hv)
        exact ⟨.list trivial fun v hv => (hboth v hv).1, fun v hv => (hboth v hv).2⟩
      · rintro ⟨hsized, hzero⟩
        exact .list trivial fun v hv => (ih v hv).mpr ⟨hsized.elem v hv, hzero v hv⟩
  | hdict t start stop ih =>
      rw [intMins_dict, List.sum_eq_zero_iff_forall_eq_nat, List.forall_mem_map]
      constructor
      · intro h
        have hboth := fun e he => (ih e he).mp (h.entry e he)
        exact ⟨.dict h.root fun e he => (hboth e he).1, fun e he => (hboth e he).2⟩
      · rintro ⟨hsized, hzero⟩
        exact .dict hsized.root fun e he => (ih e he).mpr ⟨hsized.entry e he, hzero e he⟩

/-- The text is written into the block allocated for it, and is as long as computed. -/
def TwoPassAgrees (qsort : Qsort) (v : BencodeValue) : Prop :=
  ∃ b, bToString qsort v (.ofBlock (encodingBlock v)) = some b ∧ (b.i : Int) = bToStringLen v

/-- A length that is right though ten is taken from it for each smallest `int`: there is none. -/
theorem eq_zero_of_wrap32 {n k : Nat} (hle : 13 * k ≤ n) (hfits : (n : Int) ≤ intMax)
    (h : (n : Int) = wrap32 (n - 10 * k)) : k = 0 := by
  have hn : wrap32 n = n := wrap32_natCast hfits
  have hmod : wrap32 n = wrap32 (n - 10 * k) := hn.trans h
  rw [wrap32_eq_wrap32_iff, sub_sub_cancel] at hmod
  have hpos : 0 ≤ 10 * (k : Int) := Int.mul_nonneg (by decide) (Int.natCast_nonneg k)
  have hlt : 10 * (k : Int) < 4294967296 := by
    unfold intMax at hfits
    clear hmod
    omega
  rw [Int.emod_eq_of_lt hpos hlt] at hmod
  omega

/-- A block of one byte more than the largest `int` is no block. -/
theorem lt_intMax_of_room {n : Nat} (hfits : (n : Int) ≤ intMax)
    (hroom : n ≤ (wrap32 (n + 1)).toNat) : (n : Int) < intMax := by
  by_contra hlarge
  have hmax : (n : Int) + 1 = 2147483648 := by
    unfold intMax at hfits hlarge
    omega
  have hnone : (wrap32 2147483648).toNat = 0 := by decide
  rw [hmax, hnone] at hroom
  unfold intMax at hlarge
  omega

/-- With plain nodes, the length computed is that of the text, if that is an `int`. -/
theorem bToStringLen_of_plain (hheld : v.Forall Held) (hplain : v.Forall Plain)
    (hfits : (encodedLength v : Int) ≤ intMax) : bToStringLen v = encodedLength v := by
  obtain ⟨hsized, hmins⟩ := forall_plain_iff.mp hplain
  rw [bToStringLen_eq hheld hsized, hmins, Nat.cast_zero, Int.mul_zero, Int.sub_zero]
  exact wrap32_natCast hfits

/-- What is written is as long as the text, and no longer than the block. -/
theorem encodedLength_le_of_bToString (hheld : v.Forall Held) {b : Buffer}
    (h : bToString qsort v (.ofBlock (encodingBlock v)) = some b) :
    b.i = encodedLength v ∧ encodedLength v ≤ (wrap32 (bToStringLen v + 1)).toNat := by
  have hsized := forall_sized_of_bToString hheld h
  have hlength := length_describe qsort hheld hsized
  rw [bToString_eq hheld hsized, Buffer.write_eq_some_iff] at h
  obtain ⟨hroom, rfl⟩ := h
  have hblock : (encodingBlock v).length = (wrap32 (bToStringLen v + 1)).toNat :=
    List.length_replicate
  rw [← hlength, ← hblock]
  exact ⟨rfl, hroom⟩

/-- The text is written into its block, with a NUL behind it. -/
theorem bToString_block (hheld : v.Forall Held) (hplain : v.Forall Plain)
    (hfits : (encodedLength v : Int) < intMax) :
    bToString qsort v (.ofBlock (encodingBlock v)) = some ⟨(describe qsort v).bytes, [0]⟩ := by
  have hsized := (forall_plain_iff.mp hplain).1
  have hlength := length_describe qsort hheld hsized
  have hlen := bToStringLen_of_plain hheld hplain hfits.le
  have hsize : wrap32 (bToStringLen v + 1) = ((encodedLength v + 1 : Nat) : Int) := by
    rw [hlen, ← Nat.cast_succ]
    exact wrap32_natCast (by push_cast; omega)
  have hblock : encodingBlock v = List.replicate (encodedLength v + 1) 0 := by
    rw [encodingBlock, hsize, Int.toNat_natCast]
  have hdrop : (List.replicate (encodedLength v + 1) (0 : UInt8)).drop (encodedLength v) = [0] := by
    rw [List.drop_replicate, Nat.add_sub_cancel_left]
    rfl
  rw [bToString_eq hheld hsized, Buffer.write_eq_some_iff, hblock, hlength]
  refine ⟨?_, ?_⟩
  · show encodedLength v ≤ (List.replicate (encodedLength v + 1) (0 : UInt8)).length
    rw [List.length_replicate]
    exact Nat.le_succ _
  · show _ = Buffer.mk ([] ++ _) (List.drop _ (List.replicate (encodedLength v + 1) (0 : UInt8)))
    rw [hdrop, List.nil_append]

/-- **The block that is returned**: the text, and a NUL behind it. -/
theorem bencodeToString_eq (hheld : v.Forall Held) (hplain : v.Forall Plain)
    (hfits : (encodedLength v : Int) < intMax) :
    bencodeToString qsort v = some ((encodedLength v : Int), (describe qsort v).bytes ++ [0]) := by
  unfold bencodeToString
  rw [bToString_block hheld hplain hfits, bToStringLen_of_plain hheld hplain hfits.le]
  rfl

/-- The length returned is the length computed. -/
theorem bToStringLen_of_bencodeToString {len : Int} {block : List UInt8}
    (h : bencodeToString qsort v = some (len, block)) : bToStringLen v = len := by
  unfold bencodeToString at h
  obtain ⟨b, -, hb⟩ := Option.bind_eq_some_iff.mp h
  exact (Prod.mk.inj (Option.some.inj hb)).1

/-- A block is returned only if the text is shorter than the largest `int`, where it is no longer. -/
theorem lt_intMax_of_bencodeToString (hheld : v.Forall Held) (hplain : v.Forall Plain)
    (hfits : (encodedLength v : Int) ≤ intMax) {r : Int × List UInt8}
    (h : bencodeToString qsort v = some r) : (encodedLength v : Int) < intMax := by
  unfold bencodeToString at h
  obtain ⟨b, hb, -⟩ := Option.bind_eq_some_iff.mp h
  have hroom := (encodedLength_le_of_bToString hheld hb).2
  rw [bToStringLen_of_plain hheld hplain hfits] at hroom
  exact lt_intMax_of_room hfits hroom

/-- For a value held in memory, the passes agree iff its nodes are plain and its text is shorter than
the largest `int`. -/
theorem twoPassAgrees_of_held (hheld : v.Forall Held) :
    TwoPassAgrees qsort v ↔ v.Forall Plain ∧ (encodedLength v : Int) < intMax := by
  constructor
  · rintro ⟨b, hb, hi⟩
    have hsized := forall_sized_of_bToString hheld hb
    obtain ⟨hlength, hroom⟩ := encodedLength_le_of_bToString hheld hb
    rw [hlength] at hi
    rw [← hi] at hroom
    rw [bToStringLen_eq hheld hsized] at hi
    have hfits : (encodedLength v : Int) ≤ intMax := by
      rw [hi]
      exact (fitsInt_wrap32 _).2
    have hmins := eq_zero_of_wrap32 (intMins_le v) hfits hi
    exact ⟨forall_plain_iff.mpr ⟨hsized, hmins⟩, lt_intMax_of_room hfits hroom⟩
  · rintro ⟨hplain, hfits⟩
    refine ⟨_, bToString_block hheld hplain hfits, ?_⟩
    have hlength := length_describe qsort hheld (forall_plain_iff.mp hplain).1
    rw [bToStringLen_of_plain hheld hplain hfits.le, ← hlength]
    rfl

/-! ## Parsed values -/

section Parsed

variable {string : Nat → Option UInt8} {len : Int} {place : Nat → Addr}

/-- The value of a text is held in memory as the encoder expects. -/
theorem TextAt.held {lo hi : Nat} (h : TextAt string place lo hi v) : Held v := by
  obtain ⟨t, off, hs, -, -, -, rfl⟩ := h
  cases hs with
  | @string s hs =>
      have hfits : FitsInt s.len := fitsInt_numeral s.digits
      have hlength := hs.length_payload
      have halloc := hs.allocated_iff
      rw [Syn.value, StrText.value]
      generalize s.len = n at hfits hlength halloc
      refine ⟨hfits, fun hpos => ?_⟩
      have hpos : 0 ≤ n := hpos
      refine ⟨s.ptr place off, if_pos (halloc.mpr (by omega)), ?_⟩
      show n = s.payload.length
      omega
  | @integer neg digits hd =>
      rw [Syn.value]
      trivial
  | list hs =>
      rw [Syn.value]
      trivial
  | @dict pairs hkeys hs =>
      rw [Syn.value]
      refine ⟨wf_tableOf Table.WF.init, fun e he => ?_⟩
      obtain ⟨p, hp, hbytes⟩ := bytes_mem_of_mem_tableOf he
      have hlength := (hkeys p hp).length_payload
      have hfits : FitsInt p.1.len := fitsInt_numeral p.1.digits
      have hle := length_cstr_le e.1.bytes
      rw [hbytes] at hle
      rw [CharPtr.str, hbytes]
      have hmax := hfits.2
      unfold intMax at hmax ⊢
      omega

/-- **What is parsed is held in memory as the encoder expects.** -/
theorem held_of_bencodeParse {pos : Nat} (h : bencodeParse string len place = .ok v pos) :
    v.Forall Held := by
  obtain ⟨t, hs, hr, -, -, rfl⟩ := bParseAny_text _ 0 v pos h
  exact (forall_textAt hs hr le_rfl (Nat.zero_add _).le).imp fun v hv => hv.held

/-- **The two passes agree iff the nodes of the value are plain and its text is shorter than the largest
`int`.** For every value that is parsed, whatever `qsort` does. -/
theorem twoPassAgrees_iff {pos : Nat} (h : bencodeParse string len place = .ok v pos) :
    TwoPassAgrees qsort v ↔ v.Forall Plain ∧ (encodedLength v : Int) < intMax :=
  twoPassAgrees_of_held (held_of_bencodeParse h)

/-- `twoPassAgrees_iff` on `li7ee`. -/
theorem twoPassAgrees_iff_example :
    ∃ v pos, bencodeParse (only ([108, 105, 55, 101, 101] ++ [0])) 5 (fun _ => 0) = .ok v pos ∧
      TwoPassAgrees ⟨id, List.Perm.refl⟩ v := by
  have hs : Spelled (.list [.integer false [55]]) :=
    .list (List.forall_mem_singleton.mpr (.integer (List.all_eq_true.mp rfl)))
  have hr := (reads_append.mp (reads_only ([108, 105, 55, 101, 101] ++ [0]))).1
  have hparse := (@bencodeParse_eq_ok_iff _ 5 (fun _ => 0) (sentinel_of_nul rfl) _ 5).mpr
    ⟨_, hs, hr, rfl, le_rfl, rfl⟩
  refine ⟨_, _, hparse, (twoPassAgrees_iff hparse).mpr ?_⟩
  have hseven : integerOf false [55] = 7 := by decide
  rw [Syn.value, valueItems, valueItems, Syn.value, hseven]
  refine ⟨.list trivial (List.forall_mem_singleton.mpr (.integer ?_)), ?_⟩
  · show wrap32 7 ≠ intMin
    decide
  · rw [encodedLength_list, List.map_singleton, encodedLength_integer]
    decide

/-- The keys and values of `d1:a1:b1:a1:ce`. -/
def twicePairs : List (StrText × Syn) :=
  [(⟨[49], [97]⟩, .string ⟨[49], [98]⟩), (⟨[49], [97]⟩, .string ⟨[49], [99]⟩)]

/-- The dictionary counts two entries and has one. -/
theorem length_twice :
    (tableOf (fun _ => 0) 1 twicePairs Table.init).entries.length = 1 ∧
      (tableOf (fun _ => 0) 1 twicePairs Table.init).size = 2 := by
  have hinit : (Table.init : BencodeDict).WF hashFuncStr cmpFuncStr := Table.WF.init
  have hsame : ∀ off off' : Nat, cmpFuncStr (StrText.ptr (fun _ => 0) off ⟨[49], [97]⟩)
      (StrText.ptr (fun _ => 0) off' ⟨[49], [97]⟩) = 0 := fun _ _ => cmpFuncStr_eq_zero_iff.mpr rfl
  rw [twicePairs, tableOf, tableOf, tableOf]
  constructor
  · rw [(hinit.put strKeys_lawful _ _).length_entries_put strKeys_lawful,
      hinit.length_entries_put strKeys_lawful, hinit.get_put strKeys_lawful,
      if_pos (hsame _ _), if_neg (Option.some_ne_none _), Table.entries_init,
      List.length_nil, hinit.get_eq_lookup strKeys_lawful, Table.entries_init]
    rfl
  · rw [Table.size_put, Table.size_put]
    decide

/-- **A key that is there twice.** `d1:a1:b1:a1:ce` is parsed, but when it is written a slot of the array
of keys is read that was not filled. -/
theorem key_twice :
    ∃ v pos, bencodeParse (only ((Syn.dict twicePairs).bytes ++ [0])) 14 (fun _ => 0) = .ok v pos ∧
      ∀ qsort, ¬ TwoPassAgrees qsort v := by
  have hs : Spelled (.dict twicePairs) := by
    refine .dict ?_ ?_
    · exact forall_mem_pair
        ⟨⟨by decide, List.all_eq_true.mp rfl, by decide, by decide⟩, by decide⟩
        ⟨⟨by decide, List.all_eq_true.mp rfl, by decide, by decide⟩, by decide⟩
    · exact forall_mem_pair (.string ⟨by decide, List.all_eq_true.mp rfl, by decide, by decide⟩)
        (.string ⟨by decide, List.all_eq_true.mp rfl, by decide, by decide⟩)
  have hr := (reads_append.mp (reads_only ((Syn.dict twicePairs).bytes ++ [0]))).1
  have hparse := (@bencodeParse_eq_ok_iff _ 14 (fun _ => 0) (sentinel_of_nul rfl) _ 14).mpr
    ⟨_, hs, hr, rfl, le_rfl, rfl⟩
  refine ⟨_, _, hparse, ?_⟩
  rintro qsort ⟨b, hb, -⟩
  have hsized := forall_sized_of_bToString (held_of_bencodeParse hparse) hb
  rw [Syn.value] at hsized
  have hsize : ((tableOf (fun _ => 0) 1 twicePairs Table.init).entries.length : Int) =
      (tableOf (fun _ => 0) 1 twicePairs Table.init).size := hsized.root
  rw [length_twice.1, length_twice.2] at hsize
  exact absurd hsize (by decide)

end Parsed

end Flood.Bencode
