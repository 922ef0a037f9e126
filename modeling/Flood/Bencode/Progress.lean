import Flood.Bencode.Overread
import Flood.Bencode.Returns
import Flood.Bencode.Spans

/-!
# Progress

* `Result.From pos x` — the cursor is not behind `pos`; `bParseAny_from`.
* `nodes v` — the number of values in a tree; `two_mul_nodes_le`: two bytes of the text for each.
* `Derefs bs` — behind the text `bs` a pointer to no block is followed, at whatever depth, if the buffer
  goes on; `nullDeref_derefs`, `Derefs.stopsIn`.
* `Progresses` — in a buffer that ends with a NUL, the parser returns, its cursor never moves back, and
  what it returns is returned two bytes for each value further on, inside the buffer.
* `progresses_iff` — this is so iff no such text stands where the parser starts.
-/

namespace Flood.Bencode

open Flood.Lib Flood.Hashtable

variable {string : Nat → Option UInt8} {len : Int} {place : Nat → Addr}

/-! ## The cursor -/

/-- The cursor at the end, with a value or without one, is not behind `pos`. -/
def Result.From {α : Type} (pos : Nat) : Result α → Prop
  | ok _ pos' => pos ≤ pos'
  | stop _ pos' => pos ≤ pos'

namespace Result.From

variable {α β : Type} {x : Result α} {pos mid : Nat}

/-- Nor is it behind what comes before. -/
theorem mono (h : From mid x) (hle : pos ≤ mid) : From pos x := by
  cases x with
  | ok a pos' => exact hle.trans h
  | stop why pos' => exact hle.trans h

/-- Both parts of a sequence move on. -/
theorem bind {f : α → Nat → Result β} (h : From pos x) (hf : ∀ a p, pos ≤ p → From pos (f a p)) :
    From pos (x.bind f) := by
  cases x with
  | ok a pos' => exact hf a pos' h
  | stop why pos' => exact h

/-- The check moves nothing. -/
theorem eofCheck (h : From pos x) (hle : pos ≤ mid) : From pos (eofCheck len mid x) := by
  unfold Bencode.eofCheck
  split_ifs
  · exact hle
  · exact h

/-- Both branches. -/
theorem ite {y : Result α} {p : Prop} [Decidable p] (h : From pos x) (h' : From pos y) :
    From pos (if p then x else y) := by
  split_ifs
  · exact h
  · exact h'

theorem readByte (hle : pos ≤ mid) : From pos (readByte string mid) := by
  unfold Bencode.readByte
  cases string mid with
  | none => exact hle
  | some c => exact hle

end Result.From

theorem digitLoop_from (fuel : Nat) (n : Int) (pos : Nat) :
    (digitLoop string len fuel n pos).From pos := by
  induction fuel generalizing n pos with
  | zero => exact le_rfl
  | succ fuel ih =>
      rw [digitLoop]
      refine (Result.From.readByte le_rfl).bind fun c p hp => .ite ?_ hp
      exact .eofCheck ((ih _ _).mono (by omega)) (by omega)

theorem copyLoop_from (block : Bool) (n pos : Nat) : (copyLoop string len block n pos).From pos := by
  induction n generalizing pos with
  | zero => exact le_rfl
  | succ n ih =>
      rw [copyLoop]
      refine .eofCheck ((Result.From.readByte le_rfl).bind fun c p hp => .ite ?_ hp) le_rfl
      exact ((ih (p + 1)).mono (by omega)).bind fun bytes q hq => hq

/-- A string is parsed forwards. -/
theorem bParseString_from (start : Int) (first : UInt8) (pos : Nat) :
    (bParseString string len place start first pos).From pos := by
  refine (digitLoop_from _ _ pos).bind fun n p hp => (Result.From.readByte hp).bind fun c q hq => ?_
  refine .ite hq (((copyLoop_from _ _ (q + 1)).mono (by omega)).bind fun bytes r hr => ?_)
  exact hr

/-- An integer is parsed forwards. -/
theorem bParseInt_from (start : Int) (pos : Nat) : (bParseInt string len start pos).From pos := by
  refine .eofCheck ((Result.From.readByte le_rfl).bind fun sign p hp => ?_) le_rfl
  refine ((digitLoop_from _ _ _).mono ?_).bind fun n q hq => ?_
  · split_ifs <;> omega
  · refine (Result.From.readByte hq).bind fun c r hr => .ite hr ?_
    exact hr.trans (Nat.le_succ r)

/-- A list is parsed forwards. -/
theorem bParseList_from {any : Nat → Result BencodeValue} (hany : ∀ p, (any p).From p) (start : Int)
    (pos : Nat) : (bParseList string len any start pos).From pos := by
  have hloop : ∀ fuel pos, (listLoop string len any fuel pos).From pos := by
    intro fuel
    induction fuel with
    | zero => exact fun pos => le_rfl
    | succ fuel ih =>
        intro pos
        rw [listLoop]
        refine (Result.From.readByte le_rfl).bind fun c p hp => .ite hp ?_
        refine ((hany p).mono hp).bind fun elem q hq => .eofCheck ?_ hq
        exact ((ih q).mono hq).bind fun elems r hr => hr
  exact .eofCheck ((hloop _ pos).bind fun elems p hp => hp.trans (Nat.le_succ p)) le_rfl

/-- A dictionary is parsed forwards. -/
theorem bParseDict_from {any : Nat → Result BencodeValue} (hany : ∀ p, (any p).From p) (start : Int)
    (pos : Nat) : (bParseDict string len any start pos).From pos := by
  have hloop : ∀ fuel dict pos, (dictLoop string len any fuel dict pos).From pos := by
    intro fuel
    induction fuel with
    | zero => exact fun dict pos => le_rfl
    | succ fuel ih =>
        intro dict pos
        rw [dictLoop]
        refine (Result.From.readByte le_rfl).bind fun c p hp => .ite hp ?_
        refine ((hany p).mono hp).bind fun key q hq => .eofCheck ?_ hq
        refine ((hany q).mono hq).bind fun val r hr => .eofCheck ?_ hr
        split
        · exact (ih _ r).mono hr
        · exact hr
        · exact hr
  exact .eofCheck ((hloop _ _ pos).bind fun dict p hp => hp.trans (Nat.le_succ p)) le_rfl

/-- **The cursor never moves back**, in any memory. -/
theorem bParseAny_from (depth pos : Nat) : (bParseAny string len place depth pos).From pos := by
  induction depth generalizing pos with
  | zero => exact le_rfl
  | succ depth ih =>
      have hnext : ∀ {x : Result BencodeValue} {p : Nat}, pos ≤ p → x.From (p + 1) → x.From pos :=
        fun hp hx => hx.mono (hp.trans (Nat.le_succ _))
      rw [bParseAny]
      refine .eofCheck ((Result.From.readByte le_rfl).bind fun c p hp => ?_) le_rfl
      refine .ite (hnext hp (bParseInt_from _ _)) (.ite (hnext hp (bParseList_from ih _ _)) ?_)
      refine .ite (hnext hp (bParseDict_from ih _ _)) (.ite (hnext hp (bParseString_from _ _ _)) ?_)
      exact hp.trans (Nat.le_succ p)

/-! ## The number of values -/

/-- The number of values in a tree, keys left out. -/
def nodes : BencodeValue → Nat :=
  BencodeValue.fold (fun _ _ _ => 1) (fun _ _ _ => 1) (fun ns _ _ => 1 + ns.sum)
    (fun t _ _ => 1 + (t.entries.map Prod.snd).sum)

@[simp] theorem nodes_string (s : BencodeString) (start stop : Int) : nodes (.string s start stop) = 1 :=
  BencodeValue.fold_string s start stop

@[simp] theorem nodes_integer (n start stop : Int) : nodes (.integer n start stop) = 1 :=
  BencodeValue.fold_integer n start stop

@[simp] theorem nodes_list (elems : List BencodeValue) (start stop : Int) :
    nodes (.list elems start stop) = 1 + (elems.map nodes).sum :=
  BencodeValue.fold_list elems start stop

/-- The values in the entries of a dictionary. -/
def entryNodes (dict : BencodeDict) : Nat := (dict.entries.map fun e => nodes e.2).sum

@[simp] theorem nodes_dict (t : BencodeDict) (start stop : Int) :
    nodes (.dict t start stop) = 1 + entryNodes t := by
  rw [nodes, BencodeValue.fold_dict, ← nodes, Table.entries_map, List.map_map]
  rfl

/-- A put adds no more values than those put. -/
theorem entryNodes_put {dict : BencodeDict} (h : dict.WF hashFuncStr cmpFuncStr) (key : CharPtr)
    (v : BencodeValue) :
    entryNodes (dict.put hashFuncStr cmpFuncStr key v) ≤ nodes v + entryNodes dict := by
  cases hget : dict.get hashFuncStr cmpFuncStr key with
  | none =>
      have hperm := (h.entries_put_of_none strKeys_lawful v hget).map fun e => nodes e.2
      rw [entryNodes, hperm.sum_eq, List.map_cons, List.sum_cons, ← entryNodes]
  | some w =>
      obtain ⟨a, others, -, hold, hnew⟩ := h.entries_put_of_some strKeys_lawful v hget
      have hsum := (hold.map fun e => nodes e.2).sum_eq
      have hsum' := (hnew.map fun e => nodes e.2).sum_eq
      rw [List.map_cons, List.sum_cons] at hsum hsum'
      dsimp only at hsum hsum'
      unfold entryNodes
      omega

/-- The text of a key has two bytes. -/
theorem StrText.Spelled.two_le {s : StrText} (h : s.Spelled) : 2 ≤ s.bytes.length := by
  have hdigits := List.length_pos_iff.mpr h.ne_nil
  rw [length_bytes_str]
  omega

/-- **There are two bytes of text for each value.** -/
theorem two_mul_nodes_le {t : Syn} (h : Spelled t) (off : Nat) :
    2 * nodes (t.value place off) ≤ t.bytes.length := by
  induction h generalizing off with
  | @string s hs =>
      rw [Syn.value, nodes_string, Syn.bytes]
      exact hs.two_le
  | @integer neg digits hd =>
      rw [Syn.value, nodes_integer, Syn.bytes, List.length_cons, List.length_append,
        List.length_singleton]
      omega
  | @list items hitems ih =>
      have hsum : ∀ off, 2 * ((valueItems place off items).map nodes).sum ≤ (bytesItems items).length := by
        clear hitems
        induction items with
        | nil => exact fun off => Nat.zero_le _
        | cons t items ihs =>
            intro off
            have ht := ih t List.mem_cons_self off
            have hrest := ihs (fun u hu => ih u (List.mem_cons_of_mem t hu)) (off + t.bytes.length)
            rw [valueItems, List.map_cons, List.sum_cons, bytesItems, List.length_append]
            omega
      have hall := hsum (off + 1)
      rw [Syn.value, nodes_list, Syn.bytes, List.length_cons, List.length_append, List.length_singleton]
      omega
  | @dict pairs hkeys hvals ih =>
      have hsum : ∀ off (dict : BencodeDict), dict.WF hashFuncStr cmpFuncStr →
          2 * entryNodes (tableOf place off pairs dict) ≤
            (bytesPairs pairs).length + 2 * entryNodes dict := by
        clear hvals hkeys
        induction pairs with
        | nil =>
            intro off dict _
            rw [tableOf]
            exact Nat.le_add_left _ _
        | cons p pairs ihs =>
            intro off dict hwf
            have ht := ih p List.mem_cons_self (off + p.1.bytes.length)
            have hput := entryNodes_put hwf (p.1.ptr place off)
              (p.2.value place (off + p.1.bytes.length))
            have hrest := ihs (fun u hu => ih u (List.mem_cons_of_mem p hu))
              (off + p.1.bytes.length + p.2.bytes.length) _
              (hwf.put strKeys_lawful (p.1.ptr place off) (p.2.value place (off + p.1.bytes.length)))
            rw [tableOf, bytesPairs, List.length_append, List.length_append]
            omega
      have hall := hsum (off + 1) Table.init Table.WF.init
      have hinit : entryNodes Table.init = 0 := by
        rw [entryNodes, Table.entries_init]
        rfl
      rw [Syn.value, nodes_dict, Syn.bytes, List.length_cons, List.length_append, List.length_singleton]
      omega

/-! ## Pointers to no block -/

/-- A text behind which a pointer to no block is followed if the buffer goes on, the lists and
dictionaries around it still open. -/
inductive Derefs : List UInt8 → Prop
  /-- The numeral of a string that is as long as the largest `int`. -/
  | length {ds : List UInt8} (hne : ds ≠ []) (hd : ∀ d ∈ ds, isDigit d = true)
      (hmax : numeral ds = intMax) : Derefs (ds ++ [58])
  /-- The value of a key whose length is less than `-1`. -/
  | short {pairs : List (StrText × Syn)} {s : StrText} {t : Syn}
      (hkeys : ∀ p ∈ pairs, p.1.KeySpelled) (hvals : ∀ p ∈ pairs, Spelled p.2) (hs : s.Spelled)
      (hshort : s.len < -1) (ht : Spelled t) :
      Derefs (100 :: (bytesPairs pairs ++ (s.bytes ++ t.bytes)))
  /-- In an item of a list. -/
  | item {items : List Syn} {rest : List UInt8} (hitems : ∀ t ∈ items, Spelled t) (h : Derefs rest) :
      Derefs (108 :: (bytesItems items ++ rest))
  /-- In a key of a dictionary. -/
  | key {pairs : List (StrText × Syn)} {rest : List UInt8} (hkeys : ∀ p ∈ pairs, p.1.KeySpelled)
      (hvals : ∀ p ∈ pairs, Spelled p.2) (h : Derefs rest) :
      Derefs (100 :: (bytesPairs pairs ++ rest))
  /-- In a value of a dictionary. -/
  | value {pairs : List (StrText × Syn)} {t : Syn} {rest : List UInt8}
      (hkeys : ∀ p ∈ pairs, p.1.KeySpelled) (hvals : ∀ p ∈ pairs, Spelled p.2) (ht : Spelled t)
      (h : Derefs rest) : Derefs (100 :: (bytesPairs pairs ++ (t.bytes ++ rest)))

/-- Such a text has a first byte, and it is not an `e`. -/
theorem Derefs.head {rest : List UInt8} (h : Derefs rest) : ∃ c bs, rest = c :: bs ∧ c ≠ 101 := by
  cases h with
  | @length ds hne hd hmax =>
      obtain ⟨d, ds, rfl⟩ := List.exists_cons_of_ne_nil hne
      refine ⟨d, ds ++ [58], rfl, ?_⟩
      rintro rfl
      exact absurd (hd 101 List.mem_cons_self) (by decide)
  | short hkeys hvals hs hshort ht => exact ⟨100, _, rfl, by decide⟩
  | item hitems h => exact ⟨108, _, rfl, by decide⟩
  | key hkeys hvals h => exact ⟨100, _, rfl, by decide⟩
  | value hkeys hvals ht h => exact ⟨100, _, rfl, by decide⟩

/-! ### Where pointers are followed -/

/-- Reading a byte follows no pointer to no block. -/
theorem readByte_ne_nullDeref {pos pos' : Nat} : readByte string pos ≠ .stop .nullDeref pos' := by
  unfold readByte
  cases string pos <;> simp

/-- Nor does the digit loop. -/
theorem digitLoop_ne_nullDeref {fuel pos pos' : Nat} {n : Int} :
    digitLoop string len fuel n pos ≠ .stop .nullDeref pos' := by
  induction fuel generalizing n pos with
  | zero => simp [digitLoop]
  | succ fuel ih =>
      intro h
      rw [digitLoop, Result.bind_eq_stop_iff] at h
      rcases h with h | ⟨c, p, -, h⟩
      · exact readByte_ne_nullDeref h
      · split_ifs at h
        exact ih ((eofCheck_eq_fault_iff fault_nullDeref).mp h).2

/-- The copy loop does so at its first byte, if there is no block. -/
theorem copyLoop_nullDeref_inv {block : Bool} {n pos pos' : Nat}
    (h : copyLoop string len block n pos = .stop .nullDeref pos') :
    block = false ∧ 0 < n ∧ (pos : Int) < len := by
  induction n generalizing pos with
  | zero => simp [copyLoop] at h
  | succ n ih =>
      rw [copyLoop, eofCheck_eq_fault_iff fault_nullDeref, Result.bind_eq_stop_iff] at h
      obtain ⟨hlt, h | ⟨c, p, hread, h⟩⟩ := h
      · exact absurd h readByte_ne_nullDeref
      · obtain ⟨hc, rfl⟩ := readByte_eq_ok_iff.mp hread
        cases block with
        | false => exact ⟨rfl, Nat.succ_pos n, hlt⟩
        | true =>
            rw [if_pos rfl, Result.bind_eq_stop_iff] at h
            rcases h with h | ⟨bytes, q, -, h⟩
            · exact absurd (ih h).1 (by decide)
            · exact absurd h (by simp)

/-- One of these texts stands at a position, and the buffer goes on behind it. -/
def DerefsAt (string : Nat → Option UInt8) (len : Int) (pos : Nat) : Prop :=
  ∃ text, Derefs text ∧ Reads string pos text ∧ (pos + text.length : Int) < len

/-- A string of which a byte is written to no block. -/
theorem bParseString_nullDeref {pos pos' : Nat} {start : Int} {first : UInt8}
    (hfirst : isDigit first = true) (hread : string pos = some first)
    (h : bParseString string len place start first (pos + 1) = .stop .nullDeref pos') :
    DerefsAt string len pos := by
  rw [bParseString, Result.bind_eq_stop_iff] at h
  rcases h with h | ⟨n, p, hloop, h⟩
  · exact absurd h digitLoop_ne_nullDeref
  obtain ⟨ds, c, hds, hr, -, rfl, rfl, -⟩ := digitLoop_sound hloop
  rw [readByte_of_eq hr.next, Result.bind_ok, ite_eq_iff] at h
  rcases h with ⟨_, h⟩ | ⟨hc, h⟩
  · exact absurd h (by simp)
  obtain rfl := not_not.mp hc
  rw [Result.bind_eq_stop_iff] at h
  rcases h with h | ⟨bytes, q, -, h⟩
  · obtain ⟨hblock, hpos, hlt⟩ := copyLoop_nullDeref_inv h
    have hdigits : ∀ d ∈ first :: ds, isDigit d = true := List.forall_mem_cons.mpr ⟨hfirst, hds⟩
    rw [foldl_addDigit_digitVal hfirst] at hblock hpos
    have hmax : numeral (first :: ds) = intMax := by
      by_contra hne
      have hyes := (allocated_iff (fitsInt_numeral (first :: ds))).mpr ⟨by omega, hne⟩
      rw [hblock] at hyes
      exact Bool.false_ne_true hyes
    refine ⟨_, .length (List.cons_ne_nil first ds) hdigits hmax, ⟨hread, hr⟩, ?_⟩
    rw [List.length_append, List.length_cons, List.length_singleton]
    push_cast at hlt ⊢
    omega
  · exact absurd h (by simp)

/-- An integer follows no pointer. -/
theorem bParseInt_ne_nullDeref {pos pos' : Nat} {start : Int} :
    bParseInt string len start pos ≠ .stop .nullDeref pos' := by
  intro h
  rw [bParseInt, eofCheck_eq_fault_iff fault_nullDeref, Result.bind_eq_stop_iff] at h
  obtain ⟨-, h | ⟨sign, p, -, h⟩⟩ := h
  · exact readByte_ne_nullDeref h
  rw [Result.bind_eq_stop_iff] at h
  rcases h with h | ⟨n, q, -, h⟩
  · exact digitLoop_ne_nullDeref h
  rw [Result.bind_eq_stop_iff] at h
  rcases h with h | ⟨c, r, -, h⟩
  · exact readByte_ne_nullDeref h
  · split_ifs at h
    simp at h

/-- **Nothing else makes the parser follow a pointer to no block.** -/
theorem nullDeref_derefs (hsent : Sentinel string len) {depth pos pos' : Nat}
    (h : bParseAny string len place depth pos = .stop .nullDeref pos') : DerefsAt string len pos := by
  induction depth generalizing pos pos' with
  | zero => simp [bParseAny] at h
  | succ depth ih =>
      have hfinds := @bParseAny_sound string len place hsent depth
      rw [bParseAny, eofCheck_eq_fault_iff fault_nullDeref, Result.bind_eq_stop_iff] at h
      obtain ⟨hlt, h | ⟨c, p, hread, h⟩⟩ := h
      · exact absurd h readByte_ne_nullDeref
      obtain ⟨hc, rfl⟩ := readByte_eq_ok_iff.mp hread
      split_ifs at h with hi hl hd hdigit
      · exact absurd h bParseInt_ne_nullDeref
      · rw [bParseList, eofCheck_eq_fault_iff fault_nullDeref, Result.bind_eq_stop_iff] at h
        obtain ⟨hlt', h | ⟨elems, q, -, h⟩⟩ := h
        · obtain ⟨items, hitems, hr, -, h | h⟩ := listLoop_fault hfinds fault_nullDeref hlt' h
          · exact absurd h readByte_ne_nullDeref
          · obtain ⟨text, htext, hr', hin⟩ := ih h
            refine ⟨_, .item hitems htext, ⟨hl ▸ hc, reads_append.mpr ⟨hr, hr'⟩⟩, ?_⟩
            rw [List.length_cons, List.length_append]
            push_cast at hin ⊢
            omega
        · exact absurd h (by simp)
      · rw [bParseDict, eofCheck_eq_fault_iff fault_nullDeref, Result.bind_eq_stop_iff] at h
        obtain ⟨hlt', h | ⟨dict, q, -, h⟩⟩ := h
        · obtain ⟨pairs, hkeys, hvals, hr, -, hfault⟩ := dictLoop_fault hfinds fault_nullDeref hlt' h
          rcases hfault with h | h | ⟨t, ht, hrt, h⟩ | ⟨-, s, t, hs, hshort, ht, hrt, hin⟩
          · exact absurd h readByte_ne_nullDeref
          · obtain ⟨text, htext, hr', hin⟩ := ih h
            refine ⟨_, .key hkeys hvals htext, ⟨hd ▸ hc, reads_append.mpr ⟨hr, hr'⟩⟩, ?_⟩
            rw [List.length_cons, List.length_append]
            push_cast at hin ⊢
            omega
          · obtain ⟨text, htext, hr', hin⟩ := ih h
            refine ⟨_, .value hkeys hvals ht htext,
              ⟨hd ▸ hc, reads_append.mpr ⟨hr, reads_append.mpr ⟨hrt, hr'⟩⟩⟩, ?_⟩
            rw [List.length_cons, List.length_append, List.length_append]
            push_cast at hin ⊢
            omega
          · refine ⟨_, .short hkeys hvals hs hshort ht, ⟨hd ▸ hc, reads_append.mpr ⟨hr, hrt⟩⟩, ?_⟩
            rw [List.length_cons, List.length_append]
            push_cast at hin ⊢
            omega
        · exact absurd h (by simp)
      · exact bParseString_nullDeref hdigit hc h
      · exact absurd h (by simp)

/-- **Such a text makes the parser follow a pointer to no block**, where all bytes of the buffer can be
read. -/
theorem Derefs.stopsIn (hmem : Readable string len) {text : List UInt8} (h : Derefs text) {stop : Nat}
    (hin : (stop : Int) < len) : StopsIn string len place .nullDeref stop text := by
  induction h with
  | @length ds hne hd hmax =>
      intro depth pos hdepth hr hstop
      obtain ⟨first, ds, rfl⟩ := List.exists_cons_of_ne_nil hne
      rw [List.length_append, List.length_singleton] at hdepth hstop
      obtain ⟨depth, rfl⟩ : ∃ k, depth = k + 1 := ⟨depth - 1, by omega⟩
      obtain ⟨b, hb⟩ : ∃ b, string (pos + (first :: ds).length + 1) = some b := by
        by_contra hnone
        have := hmem _ (Option.not_isSome_iff_eq_none.mp fun hsome =>
          hnone (Option.isSome_iff_exists.mp hsome))
        omega
      have hdigits := @bParseString_digits string len place pos pos first ds hd hr (fun _ => by omega)
      have hcopy : copyLoop string len (allocated intMax) intMax.toNat
          (pos + (first :: ds).length + 1) = .stop .nullDeref (pos + (first :: ds).length + 1) := by
        rw [allocated_intMax, show intMax.toNat = 2147483646 + 1 from rfl, copyLoop,
          eofCheck_of_lt (by omega), readByte_of_eq hb, Result.bind_ok, if_neg Bool.false_ne_true]
      rw [hmax, hcopy, Result.bind_stop] at hdigits
      exact ⟨_, (bParseAny_of_digit hr.1 (hd first List.mem_cons_self) (by omega)).trans hdigits⟩
  | @short pairs s t hkeys hvals hs hshort ht =>
      intro depth pos hdepth hr hstop
      rw [List.length_cons, List.length_append, List.length_append] at hdepth hstop
      obtain ⟨depth, rfl⟩ : ∃ k, depth = k + 1 := ⟨depth - 1, by omega⟩
      obtain ⟨hc, hr⟩ := hr
      obtain ⟨hrp, hrr⟩ := reads_append.mp hr
      obtain ⟨hrs, hrt⟩ := reads_append.mp hrr
      obtain ⟨fuel, k, hrun⟩ := @bParseAny_pairs string len place pairs hkeys hvals depth pos (by omega)
        hc hrp (by omega)
      have hkey := @bParseAny_complete string len place (.string s) (.string hs) depth
        (by rw [Syn.bytes]; omega) _ hrs (by rw [Syn.bytes]; push_cast; omega)
      have hval := @bParseAny_complete string len place t ht depth (by omega) _ hrt
        (by push_cast; omega)
      obtain ⟨d, bs, hbytes⟩ := List.exists_cons_of_ne_nil (Syn.string s).bytes_ne_nil
      have hread : string (pos + 1 + (bytesPairs pairs).length) = some d := by
        rw [← Syn.bytes, hbytes] at hrs
        exact hrs.1
      have hnone : ¬ allocated s.len = true := by
        rw [hs.allocated_iff]
        omega
      rw [Syn.value, StrText.value, if_neg hnone, Syn.bytes] at hkey
      rw [dictLoop, readByte_of_eq hread, Result.bind_ok,
        if_neg ((Spelled.string hs).head_ne hbytes), hkey, Result.bind_ok,
        eofCheck_of_lt (by push_cast; omega), hval, Result.bind_ok,
        eofCheck_of_lt (by push_cast; omega)] at hrun
      exact ⟨_, hrun⟩
  | item hitems h ih => exact ih.item hitems h.head hin.le
  | key hkeys hvals h ih => exact ih.key hkeys hvals h.head hin.le
  | value hkeys hvals ht h ih => exact ih.value hkeys hvals ht h.head hin.le

/-! ## A buffer that ends with a NUL -/

/-- A call of `b_parse_any` in a buffer that ends with a NUL. -/
def parseAt (bytes : List UInt8) (place : Nat → Addr) (pos : Nat) : Result BencodeValue :=
  bParseAny (only (bytes ++ [0])) bytes.length place (bytes.length + 1) pos

/-- The call returns, and its cursor tells how much there is in what it returns. -/
structure Progresses (bytes : List UInt8) (place : Nat → Addr) (pos : Nat) : Prop where
  /-- It returns. -/
  returns : (∃ v pos', parseAt bytes place pos = .ok v pos') ∨
    ∃ c pos', parseAt bytes place pos = .stop (.code c) pos'
  /-- The cursor does not move back. -/
  forward : (parseAt bytes place pos).From pos
  /-- With a value it moves on by two bytes at least, inside the buffer. -/
  advances : ∀ v pos', parseAt bytes place pos = .ok v pos' → pos + 2 ≤ pos' ∧ pos' ≤ bytes.length
  /-- There are two bytes for each value. -/
  halved : ∀ v pos', parseAt bytes place pos = .ok v pos' → 2 * nodes v ≤ pos' - pos

variable {bytes : List UInt8} {pos : Nat}

/-- The NUL. -/
theorem only_nul (bytes : List UInt8) : only (bytes ++ [0]) (bytes.length : Int).toNat = some 0 := by
  rw [Int.toNat_natCast, only, List.getElem?_concat_length]

/-- All bytes up to the NUL can be read. -/
theorem readable_nul (bytes : List UInt8) : Readable (only (bytes ++ [0])) bytes.length := by
  intro i hi
  have hout := List.getElem?_eq_none_iff.mp hi
  rw [List.length_append, List.length_singleton] at hout
  exact_mod_cast Nat.le_of_succ_le hout

/-- What is read inside the buffer stands there. -/
theorem reads_nul_iff {text : List UInt8} (hin : pos + text.length ≤ bytes.length) :
    Reads (only (bytes ++ [0])) pos text ↔ text <+: bytes.drop pos := by
  have hbytes := ((reads_append.mp (reads_only (bytes ++ [0]))).1).drop
    (show pos ≤ bytes.length by omega)
  rw [Nat.zero_add] at hbytes
  apply reads_iff_isPrefix hbytes
  rw [List.length_drop]
  omega

/-- Nothing is read behind the NUL. -/
theorem parseAt_ne_outOfBounds (pos' : Nat) : parseAt bytes place pos ≠ .stop .outOfBounds pos' := by
  intro h
  have hsent := sentinel_of_nul (only_nul bytes)
  obtain ⟨rest, hover, hr, hlength⟩ :=
    outOfBounds_overread (readable_nul bytes) hsent (bytes.length + 1) pos pos' h
  obtain ⟨pos'', hstop⟩ := @Overread.stopsIn (only (bytes ++ [0])) bytes.length place rest hover
    bytes.length rfl (fun c hc => (hsent c hc).2) (bytes.length + 1) pos (by omega) hr (by omega)
  have hnul : only (bytes ++ [0]) bytes.length = some 0 := only_nul bytes
  rw [hnul, ← parseAt, h, Result.stop.injEq] at hstop
  cases hstop.1

/-- **When parsing makes progress.** In a buffer that ends with a NUL, `b_parse_any` returns, with a
cursor that does not move back and two bytes for each value, iff it does not start at the beginning of a
text behind which a pointer to no block is followed. -/
theorem progresses_iff (bytes : List UInt8) (place : Nat → Addr) (pos : Nat) :
    Progresses bytes place pos ↔
      ¬ ∃ text, Derefs text ∧ text <+: bytes.drop pos ∧ pos + text.length < bytes.length := by
  have hsent := sentinel_of_nul (only_nul bytes)
  constructor
  · rintro hprogress ⟨text, htext, hstands, hin⟩
    obtain ⟨pos', hstop⟩ := @Derefs.stopsIn (only (bytes ++ [0])) bytes.length place
      (readable_nul bytes) text htext (pos + text.length) (by exact_mod_cast hin) (bytes.length + 1) pos
      (by omega) ((reads_nul_iff hin.le).mpr hstands) rfl
    rcases hprogress.returns with ⟨v, p, hret⟩ | ⟨c, p, hret⟩
    · exact nomatch hret.symm.trans hstop
    · obtain ⟨hcode, -⟩ := Result.stop.inj (hret.symm.trans hstop)
      cases hcode
  · intro hnone
    refine ⟨?_, bParseAny_from _ pos, fun v pos' h => ?_, fun v pos' h => ?_⟩
    · cases hrun : parseAt bytes place pos with
      | ok v pos' => exact .inl ⟨v, pos', rfl⟩
      | stop why pos' =>
          cases why with
          | code c => exact .inr ⟨c, pos', rfl⟩
          | outOfBounds => exact absurd hrun (parseAt_ne_outOfBounds pos')
          | nullDeref =>
              obtain ⟨text, htext, hr, hin⟩ := nullDeref_derefs hsent hrun
              have hin' : pos + text.length < bytes.length := by exact_mod_cast hin
              exact absurd ⟨text, htext, (reads_nul_iff hin'.le).mp hr, hin'⟩ hnone
          | outOfFuel =>
              have hends : (parseAt bytes place pos).Ends := bParseAny_ends (by omega) (by omega)
              exact absurd hrun (hends pos')
    · obtain ⟨t, ht, -, rfl, hle, -⟩ := bParseAny_sound hsent _ pos v pos' h
      have htwo := @two_mul_nodes_le place t ht pos
      have hone : 1 ≤ nodes (t.value place pos) := by
        cases t <;> simp [Syn.value]
      exact ⟨by omega, by exact_mod_cast hle⟩
    · obtain ⟨t, ht, -, rfl, -, rfl⟩ := bParseAny_sound hsent _ pos v pos' h
      have htwo := @two_mul_nodes_le place t ht pos
      omega

/-- `2147483647:a`: the block of `INT_MAX + 1` bytes is not there, and the first byte is written to it. -/
theorem no_progress :
    (∃ pos', parseAt [50, 49, 52, 55, 52, 56, 51, 54, 52, 55, 58, 97] (fun _ => 0) 0 =
        .stop .nullDeref pos') ∧
      ¬ Progresses [50, 49, 52, 55, 52, 56, 51, 54, 52, 55, 58, 97] (fun _ => 0) 0 := by
  have htext : Derefs ([50, 49, 52, 55, 52, 56, 51, 54, 52, 55] ++ [58]) :=
    .length (List.cons_ne_nil _ _) (List.all_eq_true.mp (by decide)) (by decide)
  obtain ⟨pos', hrun⟩ := @Derefs.stopsIn _ 12 (fun _ => 0)
    (readable_nul [50, 49, 52, 55, 52, 56, 51, 54, 52, 55, 58, 97]) _ htext 11 (by decide) 13 0
    (by decide) ((reads_nul_iff (by decide)).mpr ⟨[97], rfl⟩) rfl
  refine ⟨⟨pos', hrun⟩, fun h => ?_⟩
  rcases h.returns with ⟨v, p, hret⟩ | ⟨c, p, hret⟩
  · exact nomatch hret.symm.trans hrun
  · obtain ⟨hcode, -⟩ := Result.stop.inj (hret.symm.trans hrun)
    cases hcode

end Flood.Bencode
