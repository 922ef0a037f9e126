import Flood.Bencode.Grammar

/-!
# Source spans

A value carries the positions of its first and its last byte. They cut out exactly the text it was
parsed from.

* `tableOf_invariant` — an invariant rule for the dictionary the parser builds.
* `TextAt` — a value is that of a spelled text in a stretch of memory; `forall_textAt`.
* `SpanOk` — what a span promises: it lies in the buffer, its bytes parse to the value again, the
  spans of the children lie inside and apart.
* `infoHashInput`, `infoHashInput_eq` — the bytes that `torrent_init_from_file` hashes.
* `bencodeParse_spans` — every value the parser returns keeps the promise, and so does the hash.
-/

namespace Flood.Bencode

open Flood.Lib Flood.Hashtable

variable {string : Nat → Option UInt8} {len : Int} {place : Nat → Addr}

/-! ## Positions -/

theorem start_value (off : Nat) (t : Syn) : (t.value place off).start = off := by
  cases t <;> rw [Syn.value] <;> rfl

theorem stop_value (off : Nat) (t : Syn) : (t.value place off).stop = stopOf off t.bytes := by
  cases t <;> rw [Syn.value] <;> rfl

/-- The shortest texts, such as `0:` and `le`, have two bytes. -/
theorem Spelled.two_le_length {t : Syn} (h : Spelled t) : 2 ≤ t.bytes.length := by
  cases h with
  | @string s h =>
      have := List.length_pos_iff.mpr h.ne_nil
      rw [Syn.bytes, length_bytes_str]
      omega
  | integer h =>
      simp only [Syn.bytes, List.length_cons, List.length_append, List.length_nil]
      omega
  | list h => simp [Syn.bytes]
  | dict hkeys h => simp [Syn.bytes]

/-! ## Other places -/

variable {place' : Nat → Addr} {k k' : Int}

/-- Items that have the same values elsewhere, one after the other. -/
theorem shifted_valueItems {items : List Syn}
    (h : ∀ t ∈ items, ∀ off off' : Nat, off + k = off' + k' →
      (t.value place off).shifted k = (t.value place' off').shifted k')
    {off off' : Nat} (hoff : off + k = off' + k') :
    (valueItems place off items).map (BencodeValue.shifted k) =
      (valueItems place' off' items).map (BencodeValue.shifted k') := by
  induction items generalizing off off' with
  | nil => rfl
  | cons t items ih =>
      have hrest := @ih (fun u hu => h u (List.mem_cons_of_mem t hu)) (off + t.bytes.length)
        (off' + t.bytes.length) (by push_cast; omega)
      rw [valueItems, valueItems, List.map_cons, List.map_cons, h t List.mem_cons_self off off' hoff,
        hrest]

/-- Putting with and without addresses. -/
theorem put_forget (dict : BencodeDict) (key : CharPtr) (v : BencodeValue) :
    (dict.put hashFuncStr cmpFuncStr key v).map CharPtr.forget (BencodeValue.shifted k) =
      (dict.map CharPtr.forget (BencodeValue.shifted k)).put hashFuncStr cmpFuncStr key.forget
        (v.shifted k) := by
  have hhash : ∀ p : CharPtr, hashFuncStr p.forget = hashFuncStr p := fun _ => rfl
  have hcmp : ∀ p q : CharPtr, cmpFuncStr p.forget q.forget = cmpFuncStr p q := fun _ _ => rfl
  exact (Table.put_map hhash hcmp key v).symm

/-- Keys and values that have the same values elsewhere, put in turn. -/
theorem shifted_tableOf {pairs : List (StrText × Syn)}
    (h : ∀ p ∈ pairs, ∀ off off' : Nat, off + k = off' + k' →
      (p.2.value place off).shifted k = (p.2.value place' off').shifted k')
    {off off' : Nat} {dict dict' : BencodeDict} (hoff : off + k = off' + k')
    (hdict : dict.map CharPtr.forget (BencodeValue.shifted k) =
      dict'.map CharPtr.forget (BencodeValue.shifted k')) :
    (tableOf place off pairs dict).map CharPtr.forget (BencodeValue.shifted k) =
      (tableOf place' off' pairs dict').map CharPtr.forget (BencodeValue.shifted k') := by
  induction pairs generalizing off off' dict dict' with
  | nil =>
      rw [tableOf, tableOf]
      exact hdict
  | cons p pairs ih =>
      obtain ⟨key, t⟩ := p
      rw [tableOf, tableOf]
      apply ih (fun q hq => h q (List.mem_cons_of_mem _ hq)) (by push_cast; omega)
      rw [put_forget, put_forget, hdict,
        h (key, t) List.mem_cons_self (off + key.bytes.length) (off' + key.bytes.length)
          (by push_cast; omega)]
      rfl

/-- The end of a text elsewhere. -/
theorem stopOf_add {off off' : Nat} (hoff : off + k = off' + k') (bs : List UInt8) :
    stopOf off bs + k = stopOf off' bs + k' := by
  rw [stopOf, stopOf]
  omega

/-- **A text has the same value wherever it stands**, up to the shift and the addresses. -/
theorem shifted_value {t : Syn} (h : Spelled t) {off off' : Nat} (hoff : off + k = off' + k') :
    (t.value place off).shifted k = (t.value place' off').shifted k' := by
  induction h generalizing off off' with
  | @string s h =>
      have hstring : (s.value place off).forget = (s.value place' off').forget := by
        rw [StrText.value, StrText.value, BencodeString.forget, BencodeString.forget]
        split_ifs <;> rfl
      rw [Syn.value, Syn.value, BencodeValue.shifted_string, BencodeValue.shifted_string, hstring,
        stopOf_add hoff, hoff]
  | integer h =>
      rw [Syn.value, Syn.value, BencodeValue.shifted_integer, BencodeValue.shifted_integer,
        stopOf_add hoff, hoff]
  | @list items _ ih =>
      rw [Syn.value, Syn.value, BencodeValue.shifted_list, BencodeValue.shifted_list, stopOf_add hoff,
        hoff]
      congr 1
      exact shifted_valueItems (fun t ht _ _ hoff => ih t ht hoff) (by push_cast; omega)
  | @dict pairs _ _ ih =>
      rw [Syn.value, Syn.value, BencodeValue.shifted_dict, BencodeValue.shifted_dict, stopOf_add hoff,
        hoff]
      congr 1
      apply shifted_tableOf (fun p hp _ _ hoff => ih p hp hoff) (by push_cast; omega)
      rw [Table.map_init, Table.map_init]

/-! ## Where the values of a text stand -/

/-- **An invariant rule for the dictionary of a text.** What holds before, and after each put if
before it, holds after all of them; `I` may depend on how far the text has been read. -/
theorem tableOf_invariant {I : Nat → BencodeDict → Prop} {off : Nat} {pairs : List (StrText × Syn)}
    {dict : BencodeDict} (hr : Reads string off (bytesPairs pairs))
    (hstep : ∀ off' key t d, (key, t) ∈ pairs → off ≤ off' →
      off' + key.bytes.length + t.bytes.length ≤ off + (bytesPairs pairs).length →
      Reads string (off' + key.bytes.length) t.bytes → I off' d →
      I (off' + key.bytes.length + t.bytes.length)
        (d.put hashFuncStr cmpFuncStr (key.ptr place off') (t.value place (off' + key.bytes.length))))
    (h : I off dict) : I (off + (bytesPairs pairs).length) (tableOf place off pairs dict) := by
  induction pairs generalizing off dict with
  | nil => exact h
  | cons p pairs ih =>
      obtain ⟨key, t⟩ := p
      have hlength : (bytesPairs ((key, t) :: pairs)).length =
          key.bytes.length + t.bytes.length + (bytesPairs pairs).length := by
        rw [bytesPairs, List.length_append, List.length_append]
      rw [hlength] at hstep ⊢
      rw [bytesPairs, List.append_assoc] at hr
      obtain ⟨_, hr'⟩ := reads_append.mp hr
      obtain ⟨hrt, hrp⟩ := reads_append.mp hr'
      have hput := hstep off key t dict List.mem_cons_self le_rfl (by omega) hrt h
      have := ih hrp (fun off' key' t' d hmem hle hle' => hstep off' key' t' d
        (List.mem_cons_of_mem _ hmem) (by omega) (by omega)) hput
      rwa [tableOf, ← Nat.add_assoc, ← Nat.add_assoc]

/-- The dictionary of a text is well formed. -/
theorem wf_tableOf {off : Nat} {pairs : List (StrText × Syn)} {dict : BencodeDict}
    (h : dict.WF hashFuncStr cmpFuncStr) : (tableOf place off pairs dict).WF hashFuncStr cmpFuncStr := by
  induction pairs generalizing off dict with
  | nil =>
      rw [tableOf]
      exact h
  | cons p pairs ih =>
      rw [tableOf]
      exact ih (h.put strKeys_lawful _ _)

/-- The entries of a table after a put: the new value, and old entries. -/
theorem mem_entries_put {dict : BencodeDict} (h : dict.WF hashFuncStr cmpFuncStr) {key : CharPtr}
    {v : BencodeValue} {e : CharPtr × BencodeValue}
    (he : e ∈ (dict.put hashFuncStr cmpFuncStr key v).entries) : e.2 = v ∨ e ∈ dict.entries := by
  cases hget : dict.get hashFuncStr cmpFuncStr key with
  | none =>
      rcases List.mem_cons.mp ((h.entries_put_of_none strKeys_lawful v hget).mem_iff.mp he) with rfl | he
      · exact .inl rfl
      · exact .inr he
  | some w =>
      obtain ⟨a, others, _, hold, hnew⟩ := h.entries_put_of_some strKeys_lawful v hget
      rcases List.mem_cons.mp (hnew.mem_iff.mp he) with rfl | he
      · exact .inl rfl
      · exact .inr (hold.mem_iff.mpr (List.mem_cons_of_mem _ he))

/-- Two spans do not meet. -/
def Apart (v w : BencodeValue) : Prop := v.stop < w.start ∨ w.stop < v.start

/-- The values of a dictionary stand between `lo` and `hi`, apart from each other. -/
structure Laid (lo hi : Nat) (dict : BencodeDict) : Prop where
  /-- The table is well formed. -/
  wf : dict.WF hashFuncStr cmpFuncStr
  /-- The values stand between the bounds. -/
  between : ∀ e ∈ dict.entries, (lo : Int) ≤ e.2.start ∧ e.2.stop < hi
  /-- No two of them meet. -/
  apart : dict.entries.Pairwise fun e e' => Apart e.2 e'.2

/-- A value that stands behind the others is laid apart. -/
theorem Laid.put {lo hi hi' : Nat} {dict : BencodeDict} (h : Laid lo hi dict) {key : CharPtr}
    {v : BencodeValue} (hle : lo ≤ hi) (hstart : (hi : Int) ≤ v.start) (hstop : v.stop < hi')
    (hhi : hi ≤ hi') : Laid lo hi' (dict.put hashFuncStr cmpFuncStr key v) where
  wf := h.wf.put strKeys_lawful key v
  between e he := by
    rcases mem_entries_put h.wf he with hv | he
    · rw [hv]
      omega
    · have := h.between e he
      omega
  apart := by
    have hsymm : ∀ {e e' : CharPtr × BencodeValue}, Apart e.2 e'.2 → Apart e'.2 e.2 := Or.symm
    have hnew : ∀ {l : List (CharPtr × BencodeValue)} (a : CharPtr), (∀ e ∈ l, e ∈ dict.entries) →
        l.Pairwise (fun e e' => Apart e.2 e'.2) →
        ((a, v) :: l).Pairwise fun e e' => Apart e.2 e'.2 := by
      intro l a hl hapart
      refine List.pairwise_cons.mpr ⟨fun e he => .inr ?_, hapart⟩
      have := (h.between e (hl e he)).2
      show e.2.stop < v.start
      omega
    cases hget : dict.get hashFuncStr cmpFuncStr key with
    | none =>
        refine ((h.wf.entries_put_of_none strKeys_lawful v hget).pairwise_iff hsymm).mpr ?_
        exact hnew key (fun e he => he) h.apart
    | some w =>
        obtain ⟨a, others, _, hold, hput⟩ := h.wf.entries_put_of_some strKeys_lawful v hget
        refine (hput.pairwise_iff hsymm).mpr (hnew a (fun e he => ?_) ?_)
        · exact hold.mem_iff.mpr (List.mem_cons_of_mem _ he)
        · exact (List.pairwise_cons.mp ((hold.pairwise_iff hsymm).mp h.apart)).2

/-- The values of a dictionary stand apart, inside its text. -/
theorem laid_tableOf {off : Nat} {pairs : List (StrText × Syn)}
    (hr : Reads string off (bytesPairs pairs)) :
    Laid off (off + (bytesPairs pairs).length) (tableOf place off pairs Table.init) := by
  have hinit : off ≤ off ∧ Laid off off (Table.init : BencodeDict) :=
    ⟨le_rfl, Table.WF.init, fun e he => absurd he (by simp [Table.entries, Table.init]),
      by simp [Table.entries, Table.init]⟩
  refine (tableOf_invariant (I := fun hi d => off ≤ hi ∧ Laid off hi d) hr ?_ hinit).2
  intro off' key t d _ hle _ _ h
  refine ⟨by omega, h.2.put hle ?_ ?_ (by omega)⟩
  · rw [start_value]
    push_cast
    omega
  · rw [stop_value, stopOf]
    push_cast
    omega

/-- The value of each item stands where the item stands. -/
theorem mem_valueItems {off : Nat} {items : List Syn} (hr : Reads string off (bytesItems items))
    {v : BencodeValue} (hv : v ∈ valueItems place off items) :
    ∃ t off', t ∈ items ∧ off ≤ off' ∧ off' + t.bytes.length ≤ off + (bytesItems items).length ∧
      Reads string off' t.bytes ∧ v = t.value place off' := by
  induction items generalizing off with
  | nil => simp [valueItems] at hv
  | cons t items ih =>
      rw [bytesItems] at hr ⊢
      rw [List.length_append]
      obtain ⟨hrt, hri⟩ := reads_append.mp hr
      rw [valueItems] at hv
      rcases List.mem_cons.mp hv with rfl | hv
      · exact ⟨t, off, List.mem_cons_self, le_rfl, by omega, hrt, rfl⟩
      · obtain ⟨u, off', hu, hle, hle', hru, rfl⟩ := ih hri hv
        exact ⟨u, off', List.mem_cons_of_mem t hu, by omega, by omega, hru, rfl⟩

/-- The values of items stand one behind the other. -/
theorem pairwise_valueItems {off : Nat} {items : List Syn}
    (hr : Reads string off (bytesItems items)) :
    (valueItems place off items).Pairwise fun v w => v.stop < w.start := by
  induction items generalizing off with
  | nil => exact List.Pairwise.nil
  | cons t items ih =>
      rw [bytesItems] at hr
      obtain ⟨_, hri⟩ := reads_append.mp hr
      rw [valueItems]
      refine List.pairwise_cons.mpr ⟨fun v hv => ?_, ih hri⟩
      obtain ⟨u, off', _, hle, _, _, rfl⟩ := mem_valueItems hri hv
      rw [stop_value, start_value, stopOf]
      omega

/-- The value of a spelled text that stands between `lo` and `hi`. -/
def TextAt (string : Nat → Option UInt8) (place : Nat → Addr) (lo hi : Nat) (v : BencodeValue) :
    Prop :=
  ∃ t off, Spelled t ∧ Reads string off t.bytes ∧ lo ≤ off ∧ off + t.bytes.length ≤ hi ∧
    v = t.value place off

/-- **Every node is the value of a text** inside the text of the root. -/
theorem forall_textAt {t : Syn} (h : Spelled t) {off lo hi : Nat} (hr : Reads string off t.bytes)
    (hlo : lo ≤ off) (hhi : off + t.bytes.length ≤ hi) :
    (t.value place off).Forall (TextAt string place lo hi) := by
  induction h generalizing off with
  | @string s h =>
      have hroot : TextAt string place lo hi ((Syn.string s).value place off) :=
        ⟨_, off, .string h, hr, hlo, hhi, rfl⟩
      rw [Syn.value] at hroot ⊢
      exact .string hroot
  | @integer neg digits h =>
      have hroot : TextAt string place lo hi ((Syn.integer neg digits).value place off) :=
        ⟨_, off, .integer h, hr, hlo, hhi, rfl⟩
      rw [Syn.value] at hroot ⊢
      exact .integer hroot
  | @list items h ih =>
      have hroot : TextAt string place lo hi ((Syn.list items).value place off) :=
        ⟨_, off, .list h, hr, hlo, hhi, rfl⟩
      have hlength : (Syn.list items).bytes.length = (bytesItems items).length + 2 := by
        simp [Syn.bytes]
      rw [Syn.value] at hroot ⊢
      refine .list hroot fun v hv => ?_
      obtain ⟨t, off', ht, hle, hle', hrt, rfl⟩ := mem_valueItems (reads_append.mp hr.2).1 hv
      exact ih t ht hrt (by omega) (by omega)
  | @dict pairs hkeys h ih =>
      have hroot : TextAt string place lo hi ((Syn.dict pairs).value place off) :=
        ⟨_, off, .dict hkeys h, hr, hlo, hhi, rfl⟩
      have hlength : (Syn.dict pairs).bytes.length = (bytesPairs pairs).length + 2 := by
        simp [Syn.bytes]
      rw [Syn.value] at hroot ⊢
      refine .dict hroot ?_
      have hinit : (Table.init : BencodeDict).WF hashFuncStr cmpFuncStr ∧
          ∀ e ∈ (Table.init : BencodeDict).entries, e.2.Forall (TextAt string place lo hi) :=
        ⟨Table.WF.init, fun e he => absurd he (by simp [Table.entries, Table.init])⟩
      refine (tableOf_invariant (I := fun _ d => d.WF hashFuncStr cmpFuncStr ∧
        ∀ e ∈ d.entries, e.2.Forall (TextAt string place lo hi)) (reads_append.mp hr.2).1 ?_ hinit).2
      intro off' key t d hmem hle hle' hrt hd
      refine ⟨hd.1.put strKeys_lawful _ _, fun e he => ?_⟩
      rcases mem_entries_put hd.1 he with hv | he
      · rw [hv]
        refine ih (key, t) hmem hrt (by omega) ?_
        show off' + key.bytes.length + t.bytes.length ≤ hi
        omega
      · exact hd.2 e he

/-! ## Spans -/

/-- The bytes of a buffer from `start` to `stop`, both included. -/
def slice (data : List UInt8) (start stop : Int) : List UInt8 :=
  (data.drop start.toNat).take (stop - start + 1).toNat

/-- The text of a value is cut out by its span. -/
theorem slice_value {bs : List UInt8} (hbytes : Reads string 0 bs) {off : Nat} {t : Syn}
    (hr : Reads string off t.bytes) (hle : off + t.bytes.length ≤ bs.length) :
    slice bs (t.value place off).start (t.value place off).stop = t.bytes := by
  have hcount : (stopOf off t.bytes - off + 1).toNat = t.bytes.length := by
    rw [stopOf]
    omega
  have hdrop := hbytes.drop (by omega : off ≤ bs.length)
  rw [Nat.zero_add] at hdrop
  have hpre := (reads_iff_isPrefix hdrop (by rw [List.length_drop]; omega)).mp hr
  rw [start_value, stop_value, slice, Int.toNat_natCast, hcount]
  exact (List.prefix_iff_eq_take.mp hpre).symm

/-- What the span of a value in the buffer `bs` promises. -/
structure SpanOk (bs : List UInt8) (v : BencodeValue) : Prop where
  /-- It starts in the buffer. -/
  start_nonneg : 0 ≤ v.start
  /-- It has more than one byte. -/
  start_lt_stop : v.start < v.stop
  /-- It ends in the buffer. -/
  stop_lt : v.stop < bs.length
  /-- Its bytes alone are parsed, whole, as the same value, at other positions. -/
  reparse : ∀ (string : Nat → Option UInt8) (place : Nat → Addr),
    Reads string 0 (slice bs v.start v.stop) →
    ∃ v', bencodeParse string (v.stop - v.start + 1) place = .ok v' (v.stop - v.start + 1).toNat ∧
      v'.shifted v.start = v.shifted 0
  /-- The spans of the children lie strictly inside. -/
  inside : ∀ w ∈ v.children, v.start < w.start ∧ w.stop < v.stop
  /-- The spans of the children do not meet. -/
  apart : v.children.Pairwise Apart
  /-- The elements of a list stand in order. -/
  ordered : ∀ elems start stop, v = .list elems start stop →
    elems.Pairwise fun v w => v.stop < w.start

/-- The spans of the children of a text. -/
theorem children_value {t : Syn} {off : Nat} (hr : Reads string off t.bytes) :
    (∀ w ∈ (t.value place off).children, (off : Int) < w.start ∧ w.stop < stopOf off t.bytes) ∧
      (t.value place off).children.Pairwise Apart := by
  cases t with
  | string s =>
      rw [Syn.value]
      exact ⟨fun w hw => absurd hw List.not_mem_nil, List.Pairwise.nil⟩
  | integer neg digits =>
      rw [Syn.value]
      exact ⟨fun w hw => absurd hw List.not_mem_nil, List.Pairwise.nil⟩
  | list items =>
      have hlength : (Syn.list items).bytes.length = (bytesItems items).length + 2 := by
        simp [Syn.bytes]
      have hri := (reads_append.mp hr.2).1
      rw [Syn.value, stopOf, hlength]
      refine ⟨fun w hw => ?_, (pairwise_valueItems hri).imp .inl⟩
      obtain ⟨t, off', _, hle, hle', _, rfl⟩ := mem_valueItems hri hw
      rw [start_value, stop_value, stopOf]
      omega
  | dict pairs =>
      have hlength : (Syn.dict pairs).bytes.length = (bytesPairs pairs).length + 2 := by
        simp [Syn.bytes]
      have hlaid := @laid_tableOf string place (off + 1) pairs (reads_append.mp hr.2).1
      rw [Syn.value, stopOf, hlength]
      refine ⟨fun w hw => ?_, List.pairwise_map.mpr hlaid.apart⟩
      obtain ⟨e, he, rfl⟩ := List.mem_map.mp hw
      have := hlaid.between e he
      push_cast at this
      omega

/-- **The span of a text keeps its promise.** -/
theorem TextAt.spanOk {bs : List UInt8} (hbytes : Reads string 0 bs) {v : BencodeValue}
    (h : TextAt string place 0 bs.length v) : SpanOk bs v := by
  obtain ⟨t, off, hs, hr, _, hhi, rfl⟩ := h
  have htwo := hs.two_le_length
  have hslice := @slice_value string place bs hbytes off t hr hhi
  obtain ⟨hinside, hapart⟩ := @children_value string place t off hr
  have hcount : stopOf off t.bytes - off + 1 = t.bytes.length := by
    rw [stopOf]
    omega
  refine ⟨?_, ?_, ?_, ?_, ?_, hapart, ?_⟩
  · rw [start_value]
    omega
  · rw [start_value, stop_value, stopOf]
    omega
  · rw [stop_value, stopOf]
    omega
  · intro string' place' hr'
    rw [hslice] at hr'
    rw [start_value, stop_value, hcount, Int.toNat_natCast]
    refine ⟨t.value place' 0, ?_, shifted_value hs (by push_cast; omega)⟩
    have := @bParseAny_complete string' t.bytes.length place' t hs (t.bytes.length + 1) (by omega) 0 hr'
      (by push_cast; omega)
    rwa [Nat.zero_add] at this
  · rw [start_value, stop_value]
    exact hinside
  · intro elems start stop heq
    cases t with
    | list items =>
        rw [Syn.value, BencodeValue.list.injEq] at heq
        rw [← heq.1]
        exact pairwise_valueItems (reads_append.mp hr.2).1
    | string s => simp [Syn.value] at heq
    | integer neg digits => simp [Syn.value] at heq
    | dict pairs => simp [Syn.value] at heq

/-! ## The info hash -/

/-- `"info"` -/
def infoKey : List UInt8 := [105, 110, 102, 111]

/-- The bytes that are hashed: `info_sect->end - info_sect->start + 1` of them, from
`data + info_sect->start` on. None, where there is no info section.
Source: `torrent.c`, `torrent_init_from_file` -/
def infoHashInput (data : List UInt8) : BencodeValue → Option (List UInt8)
  | .dict dict _ _ =>
      (dict.get hashFuncStr cmpFuncStr ⟨0, infoKey⟩).map fun info =>
        slice data info.start info.stop
  | _ => none

/-- The text of the value under a key: the last one. -/
def storedUnder (key : List UInt8) (pairs : List (StrText × Syn)) : Option Syn :=
  pairs.foldl (fun found p => if cstr p.1.payload = key then some p.2 else found) none

/-- What is found under a key in a dictionary is the value of `found`, which stands before `hi`. -/
def Stored (string : Nat → Option UInt8) (place : Nat → Addr) (hi : Nat) (key : List UInt8)
    (dict : BencodeDict) : Option Syn → Prop
  | none => dict.get hashFuncStr cmpFuncStr ⟨0, key⟩ = none
  | some t => ∃ off, dict.get hashFuncStr cmpFuncStr ⟨0, key⟩ = some (t.value place off) ∧
      Reads string off t.bytes ∧ off + t.bytes.length ≤ hi

/-- **What is found in the dictionary of a text is what is stored in the text.** -/
theorem stored_tableOf {key : List UInt8} (hkey : NulFree key) {pairs : List (StrText × Syn)}
    {off hi : Nat} (hr : Reads string off (bytesPairs pairs))
    (hhi : off + (bytesPairs pairs).length ≤ hi) {dict : BencodeDict}
    (hdict : dict.WF hashFuncStr cmpFuncStr) {found : Option Syn}
    (h : Stored string place hi key dict found) :
    Stored string place hi key (tableOf place off pairs dict)
      (pairs.foldl (fun found p => if cstr p.1.payload = key then some p.2 else found) found) := by
  induction pairs generalizing off dict found with
  | nil =>
      rw [tableOf]
      exact h
  | cons p pairs ih =>
      obtain ⟨k, t⟩ := p
      rw [bytesPairs, List.append_assoc] at hr
      rw [bytesPairs, List.append_assoc, List.length_append, List.length_append] at hhi
      obtain ⟨_, hr'⟩ := reads_append.mp hr
      obtain ⟨hrt, hrp⟩ := reads_append.mp hr'
      have hcmp : cmpFuncStr ⟨0, key⟩ (k.ptr place off) = 0 ↔ cstr k.payload = key := by
        rw [cmpFuncStr_eq_zero_iff, CharPtr.str, cstr_of_nulFree hkey, eq_comm]
        rfl
      rw [tableOf, List.foldl_cons]
      refine ih hrp (by omega) (hdict.put strKeys_lawful _ _) ?_
      have hget := hdict.get_put strKeys_lawful (k.ptr place off) ⟨0, key⟩
        (t.value place (off + k.bytes.length))
      by_cases heq : cstr k.payload = key
      · rw [if_pos (hcmp.mpr heq)] at hget
        rw [if_pos heq]
        refine ⟨_, hget, hrt, ?_⟩
        show off + k.bytes.length + t.bytes.length ≤ hi
        omega
      · rw [if_neg (mt hcmp.mp heq)] at hget
        rw [if_neg heq]
        cases found with
        | none => exact hget.trans h
        | some u =>
            obtain ⟨off', hu, hru, hle⟩ := h
            exact ⟨off', hget.trans hu, hru, hle⟩

/-- What is hashed is the text of the value stored under `info`, also if the dictionary around it ends
right behind the buffer. -/
theorem infoHashInput_of_reads {bs : List UInt8} (hbytes : Reads string 0 bs) {pairs : List (StrText × Syn)}
    (hr : Reads string 0 (Syn.dict pairs).bytes) (hle : 1 + (bytesPairs pairs).length ≤ bs.length) :
    infoHashInput bs ((Syn.dict pairs).value place 0) =
      (storedUnder infoKey pairs).map Syn.bytes := by
  have hinit : Stored string place bs.length infoKey Table.init none := by
    show (Table.init : BencodeDict).get hashFuncStr cmpFuncStr ⟨0, infoKey⟩ = none
    rw [Table.WF.init.get_eq_lookup strKeys_lawful, Table.entries_init]
    rfl
  have hstored := stored_tableOf (by decide : NulFree infoKey) (reads_append.mp hr.2).1
    (by omega : 0 + 1 + (bytesPairs pairs).length ≤ bs.length) Table.WF.init hinit
  rw [← storedUnder] at hstored
  rw [Syn.value, infoHashInput]
  cases hfound : storedUnder infoKey pairs with
  | none =>
      rw [hfound] at hstored
      rw [hstored]
      rfl
  | some t =>
      rw [hfound] at hstored
      obtain ⟨off, hget, hrt, hhi⟩ := hstored
      rw [hget, Option.map_some, slice_value hbytes hrt hhi]
      rfl

/-- **What is hashed is the text of the value stored under `info`.** -/
theorem infoHashInput_eq {bs : List UInt8} (hbytes : Reads string 0 bs)
    {pairs : List (StrText × Syn)} (hpre : (Syn.dict pairs).bytes <+: bs) :
    infoHashInput bs ((Syn.dict pairs).value place 0) =
      (storedUnder infoKey pairs).map Syn.bytes := by
  have hlength : (Syn.dict pairs).bytes.length = (bytesPairs pairs).length + 2 := by
    simp [Syn.bytes]
  have hle := hpre.length_le
  exact infoHashInput_of_reads hbytes ((reads_iff_isPrefix hbytes hle).mpr hpre) (by omega)

/-! ## The spans of what the parser returns -/

/-- **Source spans are exact.** Every node of a value parsed from a NUL-terminated buffer has a span
that keeps its promise; and where the value is a dictionary, its text is one, and what is hashed is
the text of the last value under `info`. -/
theorem bencodeParse_spans {bs : List UInt8} (hbuffer : Reads string 0 (bs ++ [0]))
    {v : BencodeValue} {pos : Nat} (h : bencodeParse string bs.length place = .ok v pos) :
    v.Forall (SpanOk bs) ∧
      ∀ dict start stop, v = .dict dict start stop →
        ∃ pairs, Spelled (.dict pairs) ∧ (Syn.dict pairs).bytes <+: bs ∧
          infoHashInput bs v = (storedUnder infoKey pairs).map Syn.bytes := by
  obtain ⟨hbytes, hnul⟩ := reads_append.mp hbuffer
  rw [Nat.zero_add] at hnul
  have hsent : Sentinel string (bs.length : Int) := sentinel_of_nul hnul.1
  obtain ⟨t, hs, hr, hpos, hle, rfl⟩ := (bencodeParse_eq_ok_iff hsent).mp h
  constructor
  · exact (forall_textAt hs hr le_rfl (by omega)).imp fun v hv => hv.spanOk hbytes
  · intro dict start stop heq
    cases t with
    | dict pairs =>
        have hpre := (reads_iff_isPrefix hbytes (by omega)).mp hr
        exact ⟨pairs, hs, hpre, infoHashInput_eq hbytes hpre⟩
    | string s => simp [Syn.value] at heq
    | integer neg digits => simp [Syn.value] at heq
    | list items => simp [Syn.value] at heq

/-- `bencodeParse_spans` on `d4:infoi7ee`. -/
theorem bencodeParse_spans_example :
    ∃ v, bencodeParse (only ([100, 52, 58, 105, 110, 102, 111, 105, 55, 101, 101] ++ [0])) 11
        (fun _ => 0) = .ok v 11 ∧
      v.Forall (SpanOk [100, 52, 58, 105, 110, 102, 111, 105, 55, 101, 101]) := by
  have hs : Spelled (.dict [(⟨[52], infoKey⟩, .integer false [55])]) := by
    refine .dict ?_ ?_
    · exact List.forall_mem_singleton.mpr
        ⟨⟨by decide, List.all_eq_true.mp rfl, by decide, by decide⟩, by decide⟩
    · exact List.forall_mem_singleton.mpr (.integer (List.all_eq_true.mp rfl))
  have hbuffer := reads_only ([100, 52, 58, 105, 110, 102, 111, 105, 55, 101, 101] ++ [0])
  have hparse := (@bencodeParse_eq_ok_iff _ 11 (fun _ => 0) (sentinel_of_nul rfl) _ _).mpr
    ⟨_, hs, (reads_append.mp hbuffer).1, rfl, by decide, rfl⟩
  exact ⟨_, hparse, (bencodeParse_spans hbuffer hparse).1⟩

end Flood.Bencode
