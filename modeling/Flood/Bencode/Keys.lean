import Flood.Bencode.Encoding
import Flood.Bencode.Spans

/-!
# Entries of a parsed dictionary

The keys of a text are counted byte strings, the keys of the dictionary C strings.

* `entriesOf place off pairs` — the keys and values of a text, in order; `tableOf_eq_foldl`.
* `entries_tableOf` — where the C strings of the keys differ, these are the entries of the dictionary.
* `KeepsEntries` — a dictionary is parsed without losing an entry.
* `keepsEntries_iff` — it is exactly where no two keys are the same up to their first NULs;
  `keys_cut` — where they are, an entry is lost.
-/

namespace Flood.Bencode

open Flood.Lib Flood.Hashtable

variable {string : Nat → Option UInt8} {len : Int} {place : Nat → Addr}

/-- The keys and values of a text that starts at `off`, in order. -/
def entriesOf (place : Nat → Addr) : Nat → List (StrText × Syn) → List (CharPtr × BencodeValue)
  | _, [] => []
  | off, (key, t) :: pairs =>
      (key.ptr place off, t.value place (off + key.bytes.length)) ::
        entriesOf place (off + key.bytes.length + t.bytes.length) pairs

/-- The dictionary of a text is made by putting its entries. -/
theorem tableOf_eq_foldl (off : Nat) (pairs : List (StrText × Syn)) (dict : BencodeDict) :
    tableOf place off pairs dict = (entriesOf place off pairs).foldl
      (fun dict e => dict.put hashFuncStr cmpFuncStr e.1 e.2) dict := by
  induction pairs generalizing off dict with
  | nil => rw [tableOf, entriesOf, List.foldl_nil]
  | cons p pairs ih =>
      obtain ⟨key, t⟩ := p
      rw [tableOf, entriesOf, List.foldl_cons, ih]

/-- What is computed from the entries of texts of things, wherever they stand, is computed from the
things. -/
theorem map_entriesOf {α β : Type} {f : CharPtr × BencodeValue → α} {g : β → α}
    {text : β → StrText × Syn} {l : List β}
    (h : ∀ x ∈ l, ∀ off off', f ((text x).1.ptr place off, (text x).2.value place off') = g x)
    (off : Nat) : (entriesOf place off (l.map text)).map f = l.map g := by
  induction l generalizing off with
  | nil => rfl
  | cons x l ih =>
      obtain ⟨hx, hl⟩ := List.forall_mem_cons.mp h
      rw [List.map_cons, entriesOf, List.map_cons, List.map_cons, hx, ih hl]

/-- The bytes of the keys are their payloads. -/
theorem map_bytes_entriesOf (off : Nat) (pairs : List (StrText × Syn)) :
    (entriesOf place off pairs).map (fun e => e.1.bytes) = pairs.map fun p => p.1.payload := by
  have hmap := @map_entriesOf place _ _ (fun e => e.1.bytes) (fun p => p.1.payload) id pairs
    (fun _ _ _ _ => rfl) off
  rwa [List.map_id] at hmap

/-- An entry stands behind those before it. -/
theorem mem_entriesOf {off : Nat} {before behind : List (StrText × Syn)} {key : StrText} {t : Syn} :
    (key.ptr place (off + (bytesPairs before).length),
      t.value place (off + (bytesPairs before).length + key.bytes.length)) ∈
        entriesOf place off (before ++ (key, t) :: behind) := by
  induction before generalizing off with
  | nil =>
      rw [List.nil_append, entriesOf, bytesPairs, List.length_nil, Nat.add_zero]
      exact List.mem_cons_self
  | cons p before ih =>
      obtain ⟨key', t'⟩ := p
      have hoff : off + (bytesPairs ((key', t') :: before)).length =
          off + key'.bytes.length + t'.bytes.length + (bytesPairs before).length := by
        rw [bytesPairs, List.length_append, List.length_append]
        omega
      rw [hoff, List.cons_append, entriesOf]
      exact List.mem_cons_of_mem _ ih

/-- The keys of entries are distinct iff the C strings of their bytes are. -/
theorem distinct_iff {V : Type} {es : List (CharPtr × V)} :
    Distinct cmpFuncStr es ↔ (es.map fun e => e.1.bytes).Pairwise fun a b => cstr a ≠ cstr b := by
  rw [List.pairwise_map]
  exact List.Pairwise.iff fun e e' => not_congr cmpFuncStr_eq_zero_iff

/-- The keys of the entries of a text are distinct where their C strings differ. -/
theorem distinct_entriesOf {pairs : List (StrText × Syn)}
    (h : pairs.Pairwise fun p q => cstr p.1.payload ≠ cstr q.1.payload) (off : Nat) :
    Distinct cmpFuncStr (entriesOf place off pairs) := by
  rw [distinct_iff, map_bytes_entriesOf, List.pairwise_map]
  exact h

/-- Putting entries with distinct keys into an empty dictionary. -/
theorem entries_foldl_put {es : List (CharPtr × BencodeValue)} (h : Distinct cmpFuncStr es) :
    (es.foldl (fun t e => t.put hashFuncStr cmpFuncStr e.1 e.2) Table.init).entries.Perm es := by
  have hdistinct : Distinct cmpFuncStr (es ++ (Table.init : BencodeDict).entries) := by
    rwa [Table.entries_init, List.append_nil]
  have hput := Table.WF.init.entries_foldl_put strKeys_lawful hdistinct
  rwa [Table.entries_init, List.append_nil] at hput

/-- **The entries of the dictionary of a text**, where the C strings of the keys differ. -/
theorem entries_tableOf {off : Nat} {pairs : List (StrText × Syn)}
    (h : pairs.Pairwise fun p q => cstr p.1.payload ≠ cstr q.1.payload) :
    (tableOf place off pairs Table.init).entries.Perm (entriesOf place off pairs) := by
  rw [tableOf_eq_foldl]
  exact entries_foldl_put (distinct_entriesOf h off)

/-- The keys of the dictionary of a text have payloads of the text as bytes. -/
theorem bytes_mem_of_mem_tableOf {off : Nat} {pairs : List (StrText × Syn)}
    {e : CharPtr × BencodeValue} (he : e ∈ (tableOf place off pairs Table.init).entries) :
    ∃ p ∈ pairs, e.1.bytes = p.1.payload := by
  rw [tableOf_eq_foldl] at he
  obtain ⟨w, hw⟩ := Table.WF.init.key_mem_foldl_put strKeys_lawful he
  rw [Table.entries_init, List.append_nil] at hw
  have hbytes : e.1.bytes ∈ (entriesOf place off pairs).map fun e => e.1.bytes :=
    List.mem_map.mpr ⟨_, hw, rfl⟩
  rw [map_bytes_entriesOf] at hbytes
  obtain ⟨p, hp, heq⟩ := List.mem_map.mp hbytes
  exact ⟨p, hp, heq.symm⟩

/-! ## What the parser keeps -/

/-- A dictionary the parser returns is well formed. -/
theorem wf_of_bParseAny {depth pos pos' : Nat} {dict : BencodeDict} {start stop : Int}
    (h : bParseAny string len place depth pos = .ok (.dict dict start stop) pos') :
    dict.WF hashFuncStr cmpFuncStr := by
  obtain ⟨t, -, -, -, -, hv⟩ := bParseAny_text depth pos _ pos' h
  cases t with
  | dict pairs =>
      rw [Syn.value, BencodeValue.dict.injEq] at hv
      rw [hv.1]
      exact wf_tableOf Table.WF.init
  | string s => simp [Syn.value] at hv
  | integer neg digits => simp [Syn.value] at hv
  | list items => simp [Syn.value] at hv

/-- The text of a dictionary at `pos` is parsed without losing an entry: the dictionary has one entry
for each key, and under a pointer to the bytes of a key it has the value of the text behind the key. -/
def KeepsEntries (string : Nat → Option UInt8) (len : Int) (place : Nat → Addr) (depth pos : Nat)
    (pairs : List (StrText × Syn)) : Prop :=
  ∃ dict start stop pos',
    bParseAny string len place depth pos = .ok (.dict dict start stop) pos' ∧
    (dict.entries.map fun e => e.1.bytes).Perm (pairs.map fun p => p.1.payload) ∧
    ∀ before key t behind, pairs = before ++ (key, t) :: behind →
      ∃ v off, off = pos + 1 + (bytesPairs before).length + key.bytes.length ∧
        bParseAny string len place depth off = .ok v (off + t.bytes.length) ∧
        ∀ p : CharPtr, p.bytes = key.payload → dict.get hashFuncStr cmpFuncStr p = some v

/-- Where no entry is lost, the C strings of the keys differ. -/
theorem KeepsEntries.pairwise {depth pos : Nat} {pairs : List (StrText × Syn)}
    (h : KeepsEntries string len place depth pos pairs) :
    pairs.Pairwise fun p q => cstr p.1.payload ≠ cstr q.1.payload := by
  obtain ⟨dict, start, stop, pos', hparse, hperm, -⟩ := h
  have hdistinct := (wf_of_bParseAny hparse).distinct_entries strKeys_lawful
  rw [distinct_iff] at hdistinct
  have hpayloads := hperm.pairwise hdistinct fun hab => hab.symm
  rwa [List.pairwise_map] at hpayloads

/-- **No entry is lost iff no two keys are the same up to their first NULs.** For the text of a
well-formed dictionary whose keys are distinct byte strings, wherever it stands in a buffer. -/
theorem keepsEntries_iff {depth pos : Nat} {pairs : List (StrText × Syn)}
    (hwf : WellFormed (.dict pairs)) (hkeys : pairs.Pairwise fun p q => p.1.payload ≠ q.1.payload)
    (hr : Reads string pos (Syn.dict pairs).bytes)
    (hlen : (pos + (Syn.dict pairs).bytes.length : Int) ≤ len) (hfit : len ≤ intMax)
    (hdepth : (Syn.dict pairs).bytes.length ≤ depth) :
    KeepsEntries string len place depth pos pairs ↔
      pairs.Pairwise fun p q => cstr p.1.payload ≠ cstr q.1.payload := by
  refine ⟨KeepsEntries.pairwise, fun hcstr => ?_⟩
  have hspelled : Spelled (.dict pairs) := hwf.padded.lax.spelled (by omega)
  have hparse := @bParseAny_complete string len place _ hspelled depth hdepth pos hr hlen
  have hentries := @entries_tableOf place (pos + 1) pairs hcstr
  have hlength : (Syn.dict pairs).bytes.length = (bytesPairs pairs).length + 2 := by
    simp [Syn.bytes]
  rw [Syn.value] at hparse
  refine ⟨_, _, _, _, hparse, ?_, ?_⟩
  · rw [← map_bytes_entriesOf (pos + 1) pairs]
    exact hentries.map _
  · rintro before key t behind rfl
    cases hspelled with
    | dict hkeys hs =>
        have hmem : (key, t) ∈ before ++ (key, t) :: behind :=
          List.mem_append_right before List.mem_cons_self
        have hrp := (reads_append.mp hr.2).1
        rw [bytesPairs_append, bytesPairs, List.append_assoc] at hrp hlength
        obtain ⟨hrt, -⟩ := reads_append.mp (reads_append.mp (reads_append.mp hrp).2).2
        rw [List.length_append, List.length_append, List.length_append] at hlength
        refine ⟨t.value place (pos + 1 + (bytesPairs before).length + key.bytes.length), _, rfl,
          ?_, ?_⟩
        · have ht : Spelled t := hs (key, t) hmem
          exact bParseAny_complete ht (by omega) _ hrt (by push_cast; omega)
        · intro p hp
          have hcmp : cmpFuncStr p (key.ptr place (pos + 1 + (bytesPairs before).length)) = 0 :=
            cmpFuncStr_eq_zero_iff.mpr (congrArg cstr hp)
          rw [Table.get_congr strKeys_lawful hcmp]
          exact get_of_mem (wf_tableOf Table.WF.init) (hentries.mem_iff.mpr mem_entriesOf)

/-- What holds of two things holds of a list of them. -/
theorem forall_mem_pair {α : Type} {P : α → Prop} {a b : α} (ha : P a) (hb : P b) :
    ∀ x ∈ [a, b], P x :=
  List.forall_mem_cons.mpr ⟨ha, List.forall_mem_singleton.mpr hb⟩

/-- The keys and values of `d1:ai1e1:bi2ee`. -/
def abPairs : List (StrText × Syn) :=
  [(⟨[49], [97]⟩, .integer false [49]), (⟨[49], [98]⟩, .integer false [50])]

/-- The dictionary is well formed. -/
theorem wellFormed_ab : WellFormed (.dict abPairs) := by
  refine .dict ?_ ?_
  · exact forall_mem_pair ⟨by decide, by decide⟩ ⟨by decide, by decide⟩
  · exact forall_mem_pair (.integer ⟨by decide, by decide⟩) (.integer ⟨by decide, by decide⟩)

/-- `keepsEntries_iff` on `d1:ai1e1:bi2ee`. -/
theorem keepsEntries_iff_example :
    KeepsEntries (only (Syn.dict abPairs).bytes) 14 (fun _ => 0) 15 0 abPairs :=
  (keepsEntries_iff wellFormed_ab (by decide) (reads_only _) (by decide) (by decide) (by decide)).mpr
    (by decide)

/-- The keys and values of `d3:a\0bi1e3:a\0ci2ee`. -/
def cutPairs : List (StrText × Syn) :=
  [(⟨[51], [97, 0, 98]⟩, .integer false [49]), (⟨[51], [97, 0, 99]⟩, .integer false [50])]

/-- **A key is cut at its NUL.** The dictionary is well formed and its keys are distinct, but an entry
is lost. -/
theorem keys_cut :
    WellFormed (.dict cutPairs) ∧ (cutPairs.Pairwise fun p q => p.1.payload ≠ q.1.payload) ∧
      ¬ KeepsEntries (only (Syn.dict cutPairs).bytes) 18 (fun _ => 0) 19 0 cutPairs := by
  refine ⟨.dict ?_ ?_, by decide, fun h => ?_⟩
  · exact forall_mem_pair ⟨by decide, by decide⟩ ⟨by decide, by decide⟩
  · exact forall_mem_pair (.integer ⟨by decide, by decide⟩) (.integer ⟨by decide, by decide⟩)
  · exact absurd h.pairwise (by decide)

end Flood.Bencode
