import Flood.Bencode.Encoder
import Flood.Bencode.Syntax
import Flood.Lib.Runs

/-!
# What the encoder writes

* `Held` — what a value in memory has to do with the memory; `Sized` — its lengths are those of what
  it holds.
* `emitted qsort t` — the entries of a dictionary in the order in which they are written.
* `describe qsort v` — the syntax tree of the text that is written.
* `bToString_eq` — a value that is sized is written as that text; `forall_sized_of_bToString` — no
  other value is written.
* `encodedLength v` — the length of the text, whatever `qsort` does; `bToStringLen_eq` — what
  `b_to_string_len` makes of it.
-/

namespace Flood.Bencode

open Flood.Lib Flood.Hashtable

variable {qsort : Qsort} {v : BencodeValue} {t : BencodeDict}

/-! ## Numerals -/

/-- The digits counted are the digits printed. -/
theorem declenLoop_eq {fuel n : Nat} (hn : 0 < n) (h : n < 10 ^ fuel) :
    declenLoop fuel n = (printNat n).length := by
  induction fuel generalizing n with
  | zero => omega
  | succ fuel ih =>
      rw [declenLoop, if_pos (by exact_mod_cast hn)]
      rcases Nat.lt_or_ge n 10 with hlt | hge
      · have hzero : ((n : Int) / 10) = 0 := by omega
        have hone : (printNat n).length = 1 := by
          have hle := length_printNat_le Nat.one_pos (by omega : n < 10 ^ 1)
          have hpos := List.length_pos_iff.mpr (printNat_ne_nil n)
          omega
        have hstop : declenLoop fuel 0 = 0 := by cases fuel <;> rfl
        rw [hzero, hstop, hone]
        rfl
      · have hdiv : ((n : Int) / 10) = ((n / 10 : Nat) : Int) := by omega
        rw [hdiv, ih (by omega) (by rw [Nat.pow_succ] at h; omega), length_printNat_of_ten_le hge]
        rfl

/-- What is printed of a number that is not negative. -/
theorem itoa_natCast (n : Nat) : itoa n = printNat n := by
  unfold itoa
  rw [if_neg (by omega), List.nil_append, Int.natAbs_natCast]

/-- **`declen` counts the characters of every `int` but the smallest**, of which it finds one. -/
theorem declen_eq {n : Int} (h : FitsInt n) :
    declen n = (itoa n).length - if n = intMin then 10 else 0 := by
  unfold FitsInt intMin intMax at h
  unfold declen intMin
  rcases lt_trichotomy n 0 with hneg | rfl | hpos
  · rw [if_neg (by omega), if_pos hneg]
    by_cases hmin : n = -2147483648
    · subst hmin
      decide
    · obtain ⟨m, rfl⟩ : ∃ m : Nat, n = -(m : Int) := ⟨n.natAbs, by omega⟩
      have hfits : wrap32 (- -(m : Int)) = m := by
        rw [neg_neg]
        exact wrap32_natCast (by unfold intMax; omega)
      rw [if_neg hmin, hfits, declenLoop_eq (by omega) (by norm_num; omega)]
      unfold itoa
      rw [if_pos hneg, Int.natAbs_neg, Int.natAbs_natCast, List.length_append]
      simp
      omega
  · rfl
  · obtain ⟨m, rfl⟩ : ∃ m : Nat, n = (m : Int) := ⟨n.natAbs, by omega⟩
    rw [if_neg (by omega), if_neg (by omega), if_neg (by omega),
      declenLoop_eq (by omega) (by norm_num; omega), itoa_natCast]
    omega

/-! ## Values that can be written -/

/-- What a value in memory has to do with the memory: a length is an `int`, and a string has as many
bytes unless it is negative; a dictionary is well formed and its keys are no longer than an `int`
says. -/
def Held : BencodeValue → Prop
  | .string s _ _ => FitsInt s.len ∧ (0 ≤ s.len → ∃ p, s.ptr = some p ∧ s.len = p.bytes.length)
  | .integer _ _ _ => True
  | .list _ _ _ => True
  | .dict t _ _ => t.WF hashFuncStr cmpFuncStr ∧ ∀ e ∈ t.entries, (e.1.str.length : Int) ≤ intMax

/-- No length is negative, and a dictionary counts its entries. -/
def Sized : BencodeValue → Prop
  | .string s _ _ => 0 ≤ s.len
  | .integer _ _ _ => True
  | .list _ _ _ => True
  | .dict t _ _ => (t.entries.length : Int) = t.size

/-! ## Entries in order -/

section Emitted

variable {V W : Type} {t : Table CharPtr V}

/-- The entries in the order in which the keys are sorted. -/
def emitted (qsort : Qsort) (t : Table CharPtr V) : List (CharPtr × V) :=
  (qsort.sort (t.entries.map Prod.fst)).filterMap fun key =>
    (t.get hashFuncStr cmpFuncStr key).map fun v => (key, v)

/-- The key of an entry leads to its value. -/
theorem get_of_mem (h : t.WF hashFuncStr cmpFuncStr) {e : CharPtr × V} (he : e ∈ t.entries) :
    t.get hashFuncStr cmpFuncStr e.1 = some e.2 := by
  rw [h.get_eq_lookup strKeys_lawful]
  exact lookup_of_mem strKeys_lawful.toKeyEquiv (h.distinct_entries strKeys_lawful) he
    (strKeys_lawful.refl e.1)

/-- Every key is sorted, and leads to a value. -/
theorem get_of_mem_sort (h : t.WF hashFuncStr cmpFuncStr) {key : CharPtr}
    (hkey : key ∈ qsort.sort (t.entries.map Prod.fst)) :
    ∃ v, (key, v) ∈ t.entries ∧ t.get hashFuncStr cmpFuncStr key = some v := by
  obtain ⟨e, he, rfl⟩ := List.mem_map.mp ((qsort.perm _).mem_iff.mp hkey)
  exact ⟨e.2, he, get_of_mem h he⟩

/-- **The entries are written once each.** -/
theorem emitted_perm (qsort : Qsort) (h : t.WF hashFuncStr cmpFuncStr) :
    (emitted qsort t).Perm t.entries := by
  refine ((qsort.perm _).filterMap _).trans ?_
  rw [List.filterMap_map]
  have hself : ∀ e ∈ t.entries, ((fun key => (t.get hashFuncStr cmpFuncStr key).map
      fun v => (key, v)) ∘ Prod.fst) e = some e := by
    intro e he
    rw [Function.comp_apply, get_of_mem h he]
    rfl
  rw [List.filterMap_congr hself, List.filterMap_some]

/-- The keys are written in the order in which they are sorted. -/
theorem map_fst_emitted (qsort : Qsort) (h : t.WF hashFuncStr cmpFuncStr) :
    (emitted qsort t).map Prod.fst = qsort.sort (t.entries.map Prod.fst) := by
  unfold emitted
  rw [List.map_filterMap]
  have hself : ∀ key ∈ qsort.sort (t.entries.map Prod.fst),
      ((t.get hashFuncStr cmpFuncStr key).map fun v => (key, v)).map Prod.fst = some key := by
    intro key hkey
    obtain ⟨v, -, hget⟩ := get_of_mem_sort h hkey
    rw [hget]
    rfl
  rw [List.filterMap_congr hself, List.filterMap_some]

/-- Other values under the same keys. -/
theorem get_map_id (f : V → W) (key : CharPtr) : (t.map id f).get hashFuncStr cmpFuncStr key =
    (t.get hashFuncStr cmpFuncStr key).map f :=
  Table.get_map (fun _ => rfl) (fun _ _ => rfl) key

/-- What is written of other values under the same keys. -/
theorem emitted_map (qsort : Qsort) (f : V → W) (t : Table CharPtr V) :
    emitted qsort (t.map id f) = (emitted qsort t).map (Prod.map id f) := by
  unfold emitted
  rw [List.map_filterMap, Table.entries_map, List.map_map]
  have hkeys : Prod.fst ∘ Prod.map (id : CharPtr → CharPtr) f = Prod.fst := rfl
  rw [hkeys]
  refine List.filterMap_congr fun key _ => ?_
  rw [get_map_id, Option.map_map, Option.map_map]
  rfl

/-- The keys of a well-formed dictionary are distinct, in whatever order. -/
theorem pairwise_keys (h : t.WF hashFuncStr cmpFuncStr) {keys : List CharPtr}
    (hperm : keys.Perm (t.entries.map Prod.fst)) : keys.Pairwise fun p q => cmpFuncStr p q ≠ 0 := by
  have hdistinct : (t.entries.map Prod.fst).Pairwise fun p q => cmpFuncStr p q ≠ 0 :=
    List.pairwise_map.mpr (h.distinct_entries strKeys_lawful)
  exact hperm.symm.pairwise hdistinct fun hne heq => hne (strKeys_lawful.symm heq)

end Emitted

/-! ## The text -/

/-- The text of a string. -/
def stringText (s : BencodeString) : StrText := ⟨itoa s.len, s.ptr.elim [] CharPtr.bytes⟩

/-- The text of a key. -/
def keyText (key : CharPtr) : StrText := ⟨itoa (keyLen key), key.str⟩

/-- The text of an integer, as an `int`. -/
def integerSyn (n : Int) : Syn := .integer (decide (wrap32 n < 0)) (printNat (wrap32 n).natAbs)

/-- The syntax tree of the text that is written. -/
def describe (qsort : Qsort) : BencodeValue → Syn :=
  BencodeValue.fold (fun s _ _ => .string (stringText s)) (fun n _ _ => integerSyn n)
    (fun items _ _ => .list items)
    (fun t _ _ => .dict ((emitted qsort t).map fun e => (keyText e.1, e.2)))

@[simp] theorem describe_string (s : BencodeString) (start stop : Int) :
    describe qsort (.string s start stop) = .string (stringText s) :=
  BencodeValue.fold_string s start stop

@[simp] theorem describe_integer (n start stop : Int) :
    describe qsort (.integer n start stop) = integerSyn n :=
  BencodeValue.fold_integer n start stop

@[simp] theorem describe_list (elems : List BencodeValue) (start stop : Int) :
    describe qsort (.list elems start stop) = .list (elems.map (describe qsort)) :=
  BencodeValue.fold_list elems start stop

/-- The text of a dictionary. -/
theorem describe_dict (t : BencodeDict) (start stop : Int) :
    describe qsort (.dict t start stop) =
      .dict ((emitted qsort t).map fun e => (keyText e.1, describe qsort e.2)) := by
  rw [describe, BencodeValue.fold_dict, ← describe, emitted_map, List.map_map]
  rfl

/-- The bytes of an integer. -/
theorem bytes_integerSyn (n : Int) : (integerSyn n).bytes = [105] ++ itoa (wrap32 n) ++ [101] := by
  unfold integerSyn itoa
  rw [Syn.bytes]
  simp only [decide_eq_true_eq]
  rfl

/-- The texts of items, one after the other. -/
theorem bytesItems_eq_flatMap (items : List Syn) : bytesItems items = items.flatMap Syn.bytes := by
  induction items with
  | nil => rfl
  | cons t items ih => rw [bytesItems, ih, List.flatMap_cons]

/-- The texts of keys and values, one after the other. -/
theorem bytesPairs_eq_flatMap (pairs : List (StrText × Syn)) :
    bytesPairs pairs = pairs.flatMap fun p => p.1.bytes ++ p.2.bytes := by
  induction pairs with
  | nil => rfl
  | cons p pairs ih => rw [bytesPairs, ih, List.flatMap_cons]

/-! ## Writing it -/

/-- A string with all its bytes is written as its text. -/
theorem writeString_eq {p : CharPtr} {n : Nat} (hn : n ≤ p.bytes.length) (b : Buffer) :
    writeString (some p) n b = b.write (StrText.bytes ⟨itoa n, p.bytes.take n⟩) := by
  have hcopied : copied (some p) n = some (p.bytes.take n) := by
    unfold copied
    by_cases hzero : (n : Int) = 0
    · rw [if_neg (by omega), if_pos hzero, Int.natCast_eq_zero.mp hzero, List.take_zero]
    · rw [if_neg (by omega), if_neg hzero]
      show (if (n : Int) ≤ p.bytes.length + 1 then some ((p.bytes ++ [0]).take n) else none) = _
      rw [if_pos (by omega), List.take_append_of_le_length hn]
  unfold writeString
  simp only [hcopied, Option.bind_eq_bind, Option.bind_some, Buffer.write_bind_write]
  rfl

/-- A key is written as its text. -/
theorem writeString_key {key : CharPtr} (h : (key.str.length : Int) ≤ intMax) (b : Buffer) :
    writeString (some key) (keyLen key) b = b.write (keyText key).bytes := by
  have hlen : keyLen key = key.str.length :=
    wrap32_natCast h
  have hpre : key.bytes.take key.str.length = key.str :=
    (List.prefix_iff_eq_take.mp (List.takeWhile_prefix _)).symm
  have hle : key.str.length ≤ key.bytes.length := length_cstr_le key.bytes
  rw [keyText, hlen, writeString_eq hle, hpre]

/-- The array of keys holds them if the table counts its entries. -/
theorem filledKeys_map_eq_some_iff {V W : Type} {t : Table CharPtr V} (f : V → W)
    {keys : List CharPtr} :
    filledKeys (t.map id f).size (t.map id f).entries = some keys ↔
      (t.entries.length : Int) = t.size ∧ t.entries.map Prod.fst = keys := by
  have hkeys : Prod.fst ∘ Prod.map (id : CharPtr → CharPtr) f = Prod.fst := rfl
  rw [filledKeys, Table.entries_map, List.length_map, Table.size_map, List.map_map, hkeys]
  split_ifs with hsize
  · exact ⟨fun h => ⟨hsize, Option.some.inj h⟩, fun h => congrArg some h.2⟩
  · exact ⟨fun h => h.elim, fun h => (hsize h.1).elim⟩

/-- A turn of the loop over the keys finds what writes the value. -/
theorem exists_of_writePair {t : Table CharPtr Writer} {key : CharPtr} {b b' : Buffer}
    (h : writePair t b key = some b') :
    ∃ w b₁, t.get hashFuncStr cmpFuncStr key = some w ∧ w b₁ = some b' := by
  unfold writePair at h
  obtain ⟨b₁, -, h⟩ := Option.bind_eq_some_iff.mp h
  obtain ⟨w, hget, hw⟩ := Option.bind_eq_some_iff.mp h
  exact ⟨w, b₁, hget, hw⟩

/-- One turn of the loop over the keys. -/
theorem writePair_eq {t : Table CharPtr Writer} {key : CharPtr} {w : Writer} {bytes : List UInt8}
    (hkey : (key.str.length : Int) ≤ intMax) (hget : t.get hashFuncStr cmpFuncStr key = some w)
    (hw : ∀ b, w b = b.write bytes) (b : Buffer) :
    writePair t b key = b.write ((keyText key).bytes ++ bytes) := by
  unfold writePair
  simp only [writeString_key hkey, hget, Option.bind_eq_bind, Option.bind_some, hw,
    Buffer.write_bind_write]

@[simp] theorem bToString_string (s : BencodeString) (start stop : Int) :
    bToString qsort (.string s start stop) = writeString s.ptr s.len :=
  BencodeValue.fold_string s start stop

/-- Writing a dictionary. -/
theorem bToString_dict (t : BencodeDict) (start stop : Int) :
    bToString qsort (.dict t start stop) = writeDict qsort (t.map id (bToString qsort)) :=
  BencodeValue.fold_dict t start stop

/-- **A sized value is written as its text.** -/
theorem bToString_eq (hheld : v.Forall Held) (hsized : v.Forall Sized) (b : Buffer) :
    bToString qsort v b = b.write (describe qsort v).bytes := by
  induction v using BencodeValue.induct generalizing b with
  | hstring s start stop =>
      obtain ⟨p, hptr, hlen⟩ := hheld.root.2 hsized.root
      rw [bToString_string, describe_string, hptr, hlen, writeString_eq le_rfl, List.take_length,
        Syn.bytes, stringText, hptr, hlen]
      rfl
  | hinteger n start stop =>
      rw [bToString, BencodeValue.fold_integer, describe_integer, bytes_integerSyn]
      simp only [Option.bind_eq_bind, Buffer.write_bind_write]
      rfl
  | hlist elems start stop ih =>
      have hloop := Buffer.foldlM_write (f := fun b elem => bToString qsort elem b)
        (g := fun elem => (describe qsort elem).bytes) (l := elems)
        fun v hv b => ih v hv (hheld.elem v hv) (hsized.elem v hv) b
      rw [bToString, BencodeValue.fold_list, describe_list, Syn.bytes, bytesItems_eq_flatMap,
        List.flatMap_map, ← bToString]
      simp only [List.foldlM_map, hloop, Option.bind_eq_bind, Buffer.write_bind_write]
      simp
  | hdict t start stop ih =>
      obtain ⟨hwf, hkeys⟩ := hheld.root
      have hmem : ∀ e ∈ emitted qsort t, e ∈ t.entries := fun e he =>
        (emitted_perm qsort hwf).mem_iff.mp he
      have hget : ∀ e ∈ emitted qsort t, (t.map id (bToString qsort)).get hashFuncStr cmpFuncStr e.1 =
          some (bToString qsort e.2) := by
        intro e he
        rw [get_map_id, get_of_mem hwf (hmem e he)]
        rfl
      have hturn : ∀ e ∈ emitted qsort t, ∀ b, writePair (t.map id (bToString qsort)) b e.1 =
          b.write ((keyText e.1).bytes ++ (describe qsort e.2).bytes) := fun e he b =>
        writePair_eq (hkeys e (hmem e he)) (hget e he)
          (ih e (hmem e he) (hheld.entry e (hmem e he)) (hsized.entry e (hmem e he))) b
      have hloop := Buffer.foldlM_write hturn
      have hfilled := (filledKeys_map_eq_some_iff (bToString qsort)).mpr ⟨hsized.root, rfl⟩
      rw [bToString_dict, describe_dict, Syn.bytes, bytesPairs_eq_flatMap, List.flatMap_map]
      unfold writeDict
      simp only [hfilled, ← map_fst_emitted qsort hwf, List.foldlM_map, hloop,
        Option.bind_eq_bind, Option.bind_some, Buffer.write_bind_write]
      simp

/-- **Only a sized value is written.** -/
theorem forall_sized_of_bToString (hheld : v.Forall Held) {b b' : Buffer}
    (h : bToString qsort v b = some b') : v.Forall Sized := by
  induction v using BencodeValue.induct generalizing b b' with
  | hstring s start stop =>
      rw [bToString_string, writeString] at h
      obtain ⟨b₁, -, h⟩ := Option.bind_eq_some_iff.mp h
      obtain ⟨b₂, -, h⟩ := Option.bind_eq_some_iff.mp h
      obtain ⟨bytes, hcopied, -⟩ := Option.bind_eq_some_iff.mp h
      refine .string ?_
      by_contra hneg
      unfold copied at hcopied
      rw [if_pos (not_le.mp hneg)] at hcopied
      cases hcopied
  | hinteger n start stop => exact .integer trivial
  | hlist elems start stop ih =>
      rw [bToString, BencodeValue.fold_list, ← bToString] at h
      obtain ⟨b₁, -, h⟩ := Option.bind_eq_some_iff.mp h
      obtain ⟨b₂, hloop, -⟩ := Option.bind_eq_some_iff.mp h
      refine .list trivial fun v hv => ?_
      obtain ⟨b₃, b₄, hv'⟩ := exists_step_of_foldlM hloop (List.mem_map_of_mem hv)
      exact ih v hv (hheld.elem v hv) hv'
  | hdict t start stop ih =>
      obtain ⟨hwf, -⟩ := hheld.root
      rw [bToString_dict, writeDict] at h
      obtain ⟨b₁, -, h⟩ := Option.bind_eq_some_iff.mp h
      obtain ⟨keys, hfilled, h⟩ := Option.bind_eq_some_iff.mp h
      obtain ⟨b₂, hloop, -⟩ := Option.bind_eq_some_iff.mp h
      obtain ⟨hsize, rfl⟩ := (filledKeys_map_eq_some_iff (bToString qsort)).mp hfilled
      refine .dict hsize fun e he => ?_
      have hkey : e.1 ∈ qsort.sort (t.entries.map Prod.fst) := by
        rw [(qsort.perm _).mem_iff]
        exact List.mem_map_of_mem he
      obtain ⟨b₃, b₄, hturn⟩ := exists_step_of_foldlM hloop hkey
      obtain ⟨w, b₅, hget, hw⟩ := exists_of_writePair hturn
      rw [get_map_id, get_of_mem hwf he] at hget
      obtain rfl := Option.some.inj hget
      exact ih e he (hheld.entry e he) hw

/-! ## Its length -/

/-- The length of the text of a value. -/
def encodedLength : BencodeValue → Nat :=
  BencodeValue.fold (fun s _ _ => (itoa s.len).length + 1 + s.len.toNat)
    (fun n _ _ => (itoa (wrap32 n)).length + 2) (fun lens _ _ => lens.sum + 2)
    (fun t _ _ => (t.entries.map fun e => (keyText e.1).bytes.length + e.2).sum + 2)

/-- How often the smallest `int` occurs in a value, whose integers are taken as `int`s. -/
def intMins : BencodeValue → Nat :=
  BencodeValue.fold (fun _ _ _ => 0) (fun n _ _ => if wrap32 n = intMin then 1 else 0)
    (fun counts _ _ => counts.sum) (fun t _ _ => (t.entries.map Prod.snd).sum)

@[simp] theorem encodedLength_string (s : BencodeString) (start stop : Int) :
    encodedLength (.string s start stop) = (itoa s.len).length + 1 + s.len.toNat :=
  BencodeValue.fold_string s start stop

@[simp] theorem encodedLength_integer (n start stop : Int) :
    encodedLength (.integer n start stop) = (itoa (wrap32 n)).length + 2 :=
  BencodeValue.fold_integer n start stop

@[simp] theorem encodedLength_list (elems : List BencodeValue) (start stop : Int) :
    encodedLength (.list elems start stop) = (elems.map encodedLength).sum + 2 :=
  BencodeValue.fold_list elems start stop

/-- The length of the text of a dictionary. -/
theorem encodedLength_dict (t : BencodeDict) (start stop : Int) :
    encodedLength (.dict t start stop) =
      (t.entries.map fun e => (keyText e.1).bytes.length + encodedLength e.2).sum + 2 := by
  rw [encodedLength, BencodeValue.fold_dict, ← encodedLength, Table.entries_map, List.map_map]
  rfl

@[simp] theorem intMins_string (s : BencodeString) (start stop : Int) :
    intMins (.string s start stop) = 0 :=
  BencodeValue.fold_string s start stop

@[simp] theorem intMins_integer (n start stop : Int) :
    intMins (.integer n start stop) = if wrap32 n = intMin then 1 else 0 :=
  BencodeValue.fold_integer n start stop

@[simp] theorem intMins_list (elems : List BencodeValue) (start stop : Int) :
    intMins (.list elems start stop) = (elems.map intMins).sum :=
  BencodeValue.fold_list elems start stop

/-- The smallest `int`s of a dictionary. -/
theorem intMins_dict (t : BencodeDict) (start stop : Int) :
    intMins (.dict t start stop) = (t.entries.map fun e => intMins e.2).sum := by
  rw [intMins, BencodeValue.fold_dict, ← intMins, Table.entries_map, List.map_map]
  rfl

/-- **The text is as long, whatever `qsort` does.** -/
theorem length_describe (qsort : Qsort) (hheld : v.Forall Held) (hsized : v.Forall Sized) :
    (describe qsort v).bytes.length = encodedLength v := by
  induction v using BencodeValue.induct with
  | hstring s start stop =>
      obtain ⟨p, hptr, hlen⟩ := hheld.root.2 hsized.root
      simp [Syn.bytes, stringText, hptr, hlen]
  | hinteger n start stop =>
      rw [describe_integer, encodedLength_integer, bytes_integerSyn]
      simp
  | hlist elems start stop ih =>
      have hsum : elems.map (fun v => (describe qsort v).bytes.length) =
          elems.map encodedLength :=
        List.map_congr_left fun v hv => ih v hv (hheld.elem v hv) (hsized.elem v hv)
      rw [describe_list, encodedLength_list, Syn.bytes, bytesItems_eq_flatMap, List.flatMap_map,
        ← hsum]
      simp [List.length_flatMap]
  | hdict t start stop ih =>
      have hsum : t.entries.map (fun e => (keyText e.1).bytes.length +
          (describe qsort e.2).bytes.length) =
          t.entries.map fun e => (keyText e.1).bytes.length + encodedLength e.2 :=
        List.map_congr_left fun e he => by rw [ih e he (hheld.entry e he) (hsized.entry e he)]
      rw [describe_dict, encodedLength_dict, Syn.bytes, bytesPairs_eq_flatMap, List.flatMap_map,
        ← hsum, ← ((emitted_perm qsort hheld.root.1).map _).sum_eq]
      simp [List.length_flatMap]

end Flood.Bencode
