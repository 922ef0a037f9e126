import Flood.Bencode.Grammar

/-!
# Texts cut short, and texts with more behind them

* `bParseAny_cut` — a spelled text that is cut short, a NUL standing where it is cut, makes the parser
  return a code other than `0`.
* `bencodeParse_cuts` — what is parsed once is parsed the same whatever follows it, and not at all
  when cut short.
-/

namespace Flood.Bencode

open Flood.Lib Flood.Hashtable

variable {string : Nat → Option UInt8} {len : Int} {place : Nat → Addr}

/-- A code other than `0` is returned. -/
def Result.Fails {α : Type} (x : Result α) : Prop := ∃ c pos, c ≠ 0 ∧ x = .stop (.code c) pos

/-- What follows a failure is not reached. -/
theorem Result.Fails.bind {α β : Type} {x : Result α} {f : α → Nat → Result β} (h : x.Fails) :
    (x.bind f).Fails := by
  obtain ⟨c, pos, hc, rfl⟩ := h
  exact ⟨c, pos, hc, rfl⟩

/-- Behind the buffer the check fails. -/
theorem eofCheck_fails {α : Type} {pos : Nat} {k : Result α} (h : len ≤ pos) :
    (eofCheck len pos k).Fails :=
  ⟨-1, pos, by decide, if_pos h⟩

/-- A run of digits that goes on up to the end of the buffer fails. -/
theorem digitLoop_cut {fuel pos : Nat} {n : Int} {ds : List UInt8} (hr : Reads string pos ds)
    (hd : ∀ d ∈ ds, isDigit d = true) (hne : ds ≠ []) (hlen : len ≤ pos + ds.length)
    (hpos : 0 < fuel) (hfuel : len ≤ pos + fuel) : (digitLoop string len fuel n pos).Fails := by
  induction ds generalizing fuel pos n with
  | nil => exact absurd rfl hne
  | cons d ds ih =>
      rw [List.length_cons] at hlen
      push_cast at hlen
      obtain ⟨fuel, rfl⟩ : ∃ k, fuel = k + 1 := ⟨fuel - 1, by omega⟩
      rw [digitLoop, readByte_of_eq hr.1, Result.bind_ok, if_pos (hd d List.mem_cons_self)]
      push_cast at hfuel
      by_cases hend : len ≤ (pos + 1 : Nat)
      · exact eofCheck_fails hend
      · rw [eofCheck_of_lt (not_le.mp hend)]
        push_cast at hend
        refine ih hr.2 (fun e he => hd e (List.mem_cons_of_mem d he)) ?_ (by push_cast; omega)
          (by omega) (by push_cast; omega)
        rintro rfl
        rw [List.length_nil] at hlen
        push_cast at hlen
        omega

/-- A run of digits that is cut fails, or stops at the NUL behind it. -/
theorem digitLoop_bind_cut {α : Type} {k : Int → Nat → Result α} {pos : Nat} {n : Int}
    {ds : List UInt8} (hnul : string len.toNat = some 0) (hr : Reads string pos ds)
    (hd : ∀ d ∈ ds, isDigit d = true) (hlen : (pos + ds.length : Int) = len)
    (hk : ∀ m, (k m len.toNat).Fails) :
    ((digitLoop string len (len.toNat + 1) n pos).bind k).Fails := by
  by_cases hnil : ds = []
  · have hpos : pos = len.toNat := by
      rw [hnil, List.length_nil] at hlen
      push_cast at hlen
      omega
    rw [hpos, digitLoop, readByte_of_eq hnul, Result.bind_ok, if_neg (by decide), Result.bind_ok]
    exact hk n
  · exact (digitLoop_cut hr hd hnil hlen.ge (by omega) (by push_cast; omega)).bind

/-- A payload that is not all in the buffer fails, where there is a block for the part that is. -/
theorem copyLoop_cut {block : Bool} {n pos : Nat} {bs : List UInt8} (hr : Reads string pos bs)
    (hlen : len ≤ pos + bs.length) (hn : bs.length < n)
    (hblock : (pos : Int) < len → block = true) : (copyLoop string len block n pos).Fails := by
  obtain ⟨n, rfl⟩ : ∃ k, n = k + 1 := ⟨n - 1, by omega⟩
  induction bs generalizing n pos with
  | nil =>
      rw [List.length_nil] at hlen
      exact eofCheck_fails (by push_cast at hlen; omega)
  | cons c bs ih =>
      rw [List.length_cons] at hlen hn
      push_cast at hlen
      by_cases hend : (pos : Int) < len
      · obtain rfl := hblock hend
        obtain ⟨n, rfl⟩ : ∃ k, n = k + 1 := ⟨n - 1, by omega⟩
        rw [copyLoop, eofCheck_of_lt hend, readByte_of_eq hr.1, Result.bind_ok, if_pos rfl]
        exact (ih hr.2 (by push_cast; omega) (fun _ => rfl) n (by omega)).bind
      · exact eofCheck_fails (not_lt.mp hend)

/-- A prefix of two lists is one of the first, or the first and a prefix of the second. -/
theorem prefix_append_cases {α : Type} {cs as bs : List α} (h : cs <+: as ++ bs) :
    (cs <+: as ∧ cs.length < as.length) ∨ ∃ ds, cs = as ++ ds ∧ ds <+: bs := by
  by_cases hle : cs.length < as.length
  · exact .inl ⟨List.prefix_of_prefix_length_le h (List.prefix_append as bs) hle.le, hle⟩
  · have has := List.prefix_of_prefix_length_le (List.prefix_append as bs) h (not_lt.mp hle)
    obtain ⟨ds, rfl⟩ := has
    exact .inr ⟨ds, rfl, (List.prefix_append_right_inj as).mp h⟩

/-- `any` fails on a text that is cut short, to `n` bytes at most. -/
def FailsCut (string : Nat → Option UInt8) (len : Int) (any : Nat → Result BencodeValue) (n : Nat)
    (t : Syn) : Prop :=
  ∀ pos cs, cs <+: t.bytes → cs.length < t.bytes.length → cs.length ≤ n → Reads string pos cs →
    (pos + cs.length : Int) = len → (any pos).Fails

/-- A string that is cut short fails. -/
theorem bParseString_cut (hnul : string len.toNat = some 0) {pos : Nat} {s : StrText} {first : UInt8}
    {ds cs : List UInt8} (hs : s.Spelled) (hds : s.digits = first :: ds)
    (hcs : cs <+: ds ++ 58 :: s.payload) (hlt : cs.length < (ds ++ 58 :: s.payload).length)
    (hr : Reads string (pos + 1) cs) (hlen : (pos + 1 + cs.length : Int) = len) :
    (bParseString string len place pos first (pos + 1)).Fails := by
  have hdigits : ∀ d ∈ ds, isDigit d = true := fun d hd =>
    hs.digits d (hds ▸ List.mem_cons_of_mem first hd)
  have hcut : ∀ cs : List UInt8, (∀ d ∈ cs, isDigit d = true) → Reads string (pos + 1) cs →
      (pos + 1 + cs.length : Int) = len →
      (bParseString string len place pos first (pos + 1)).Fails := by
    intro cs hd hr hlen
    refine digitLoop_bind_cut hnul hr hd (by push_cast; omega) fun m => ?_
    rw [readByte_of_eq hnul, Result.bind_ok, if_pos (by decide)]
    exact ⟨-2, len.toNat, by decide, rfl⟩
  rcases prefix_append_cases hcs with ⟨hpre, _⟩ | ⟨es, rfl, hpre⟩
  · exact hcut cs (fun d hd => hdigits d (hpre.subset hd)) hr hlen
  · cases es with
    | nil =>
        rw [List.append_nil] at hr hlen
        exact hcut ds hdigits hr hlen
    | cons c es =>
        obtain ⟨rfl, hpre⟩ := List.cons_prefix_cons.mp hpre
        rw [List.length_append, List.length_append, List.length_cons, List.length_cons] at hlt
        rw [List.length_append, List.length_cons] at hlen
        push_cast at hlen
        have hnum : ds.foldl addDigit (digitVal first) = s.len := by
          rw [foldl_addDigit_digitVal (hs.digits first (hds ▸ List.mem_cons_self)), ← hds, StrText.len]
        have hpayload := hs.length_payload
        have halloc : allocated s.len = true := hs.allocated_iff.mpr (by omega)
        have hcopy := @copyLoop_cut string len true s.len.toNat (pos + 1 + ds.length + 1) es
          (reads_append.mp hr).2.2 (by push_cast; omega) (by omega) (fun _ => rfl)
        rw [bParseString, digitLoop_complete hr hdigits (by decide) (fun _ => by push_cast; omega)
            (by omega),
          Result.bind_ok, readByte_of_eq hr.next, Result.bind_ok, if_neg (by decide), hnum, halloc]
        exact hcopy.bind

/-- An integer that is cut short fails. -/
theorem bParseInt_cut (hnul : string len.toNat = some 0) {pos : Nat} {neg : Bool}
    {ds cs : List UInt8} (hd : ∀ d ∈ ds, isDigit d = true)
    (hcs : cs <+: (if neg then [45] else []) ++ ds ++ [101])
    (hlt : cs.length < ((if neg then [45] else []) ++ ds ++ [101]).length)
    (hr : Reads string (pos + 1) cs) (hlen : (pos + 1 + cs.length : Int) = len) :
    (bParseInt string len pos (pos + 1)).Fails := by
  rw [bParseInt]
  by_cases hnil : cs = []
  · apply eofCheck_fails
    rw [hnil, List.length_nil] at hlen
    push_cast at hlen ⊢
    omega
  obtain ⟨c, es, rfl⟩ := List.exists_cons_of_ne_nil hnil
  rw [List.length_cons] at hlen
  push_cast at hlen
  have hk : ∀ (sign : UInt8) (m : Int), ((readByte string len.toNat).bind fun c pos' =>
      if c ≠ 101 then Result.stop (Stop.code (-2)) pos'
      else .ok (BencodeValue.integer (if sign = 45 then wrap32 (m * -1) else m) pos pos')
        (pos' + 1)).Fails := by
    intro sign m
    rw [readByte_of_eq hnul, Result.bind_ok, if_pos (by decide)]
    exact ⟨-2, len.toNat, by decide, rfl⟩
  -- what is left of the digits, behind the minus if there is one
  have hds : ∀ fs : List UInt8, fs <+: ds ++ [101] → fs.length < (ds ++ [101]).length → fs <+: ds := by
    intro fs hpre hlt
    refine List.prefix_of_prefix_length_le hpre (List.prefix_append ds [101]) ?_
    rw [List.length_append, List.length_singleton] at hlt
    omega
  rw [eofCheck_of_lt (by push_cast; omega), readByte_of_eq hr.1, Result.bind_ok]
  cases neg with
  | true =>
      simp only [if_true, List.cons_append] at hcs hlt
      obtain ⟨rfl, hpre⟩ := List.cons_prefix_cons.mp hcs
      have hes := hds es hpre (by simpa using hlt)
      rw [if_pos rfl]
      exact digitLoop_bind_cut hnul hr.2 (fun d h => hd d (hes.subset h)) (by push_cast; omega)
        (hk 45)
  | false =>
      simp only [Bool.false_eq_true, if_false, List.nil_append] at hcs hlt
      have hes := hds (c :: es) hcs hlt
      have hne : c ≠ 45 := by
        rintro rfl
        exact absurd (hd 45 (hes.subset List.mem_cons_self)) (by decide)
      rw [if_neg hne]
      exact digitLoop_bind_cut hnul hr (fun d h => hd d (hes.subset h))
        (by rw [List.length_cons]; push_cast; omega) (hk c)

/-- Items that are cut short fail. -/
theorem listLoop_cut {any : Nat → Result BencodeValue} {fuel pos n : Nat} {items : List Syn}
    {cs : List UInt8} (hs : ∀ t ∈ items, Spelled t)
    (hany : ∀ t ∈ items, t.bytes.length ≤ n → Parses string len place any t)
    (hcut : ∀ t ∈ items, FailsCut string len any n t) (hn : cs.length ≤ n) (hcs : cs <+: bytesItems items)
    (hne : cs ≠ []) (hr : Reads string pos cs) (hlen : (pos + cs.length : Int) = len)
    (hfuel : cs.length ≤ fuel) : (listLoop string len any fuel pos).Fails := by
  induction items generalizing fuel pos cs with
  | nil => exact absurd (List.prefix_nil.mp hcs) hne
  | cons t items ih =>
      have hpos := List.length_pos_iff.mpr hne
      have htpos := List.length_pos_iff.mpr t.bytes_ne_nil
      obtain ⟨fuel, rfl⟩ : ∃ k, fuel = k + 1 := ⟨fuel - 1, by omega⟩
      obtain ⟨c, bs, hbytes⟩ := List.exists_cons_of_ne_nil t.bytes_ne_nil
      have hhead := (hs t List.mem_cons_self).head_ne hbytes
      rw [bytesItems] at hcs
      obtain ⟨d, es, rfl⟩ := List.exists_cons_of_ne_nil hne
      obtain rfl : d = c := by
        rw [hbytes, List.cons_append] at hcs
        exact (List.cons_prefix_cons.mp hcs).1
      rw [listLoop, readByte_of_eq hr.1, Result.bind_ok, if_neg hhead]
      rcases prefix_append_cases hcs with ⟨hpre, hlt⟩ | ⟨fs, heq, hpre⟩
      · exact (hcut t List.mem_cons_self pos _ hpre hlt hn hr hlen).bind
      · rw [heq] at hr hlen hfuel hn
        rw [List.length_append] at hlen hfuel hn
        push_cast at hlen
        obtain ⟨hrt, hri⟩ := reads_append.mp hr
        rw [hany t List.mem_cons_self (by omega) pos hrt (by omega), Result.bind_ok]
        by_cases hnil : fs = []
        · apply eofCheck_fails
          rw [hnil, List.length_nil] at hlen
          push_cast at hlen ⊢
          omega
        · have := List.length_pos_iff.mpr hnil
          rw [eofCheck_of_lt (by push_cast; omega)]
          exact (ih (fun u hu => hs u (List.mem_cons_of_mem t hu))
            (fun u hu => hany u (List.mem_cons_of_mem t hu))
            (fun u hu => hcut u (List.mem_cons_of_mem t hu)) (by omega) hpre hnil hri
            (by push_cast; omega) (by omega)).bind

/-- Keys and values that are cut short fail. -/
theorem dictLoop_cut {any : Nat → Result BencodeValue} {fuel pos n : Nat}
    {pairs : List (StrText × Syn)} {dict : BencodeDict} {cs : List UInt8}
    (hkeys : ∀ p ∈ pairs, p.1.KeySpelled)
    (hkey : ∀ p ∈ pairs, p.1.bytes.length ≤ n → Parses string len place any (.string p.1))
    (hany : ∀ p ∈ pairs, p.2.bytes.length ≤ n → Parses string len place any p.2)
    (hkeyCut : ∀ p ∈ pairs, FailsCut string len any n (.string p.1))
    (hcut : ∀ p ∈ pairs, FailsCut string len any n p.2) (hn : cs.length ≤ n) (hcs : cs <+: bytesPairs pairs)
    (hne : cs ≠ []) (hr : Reads string pos cs) (hlen : (pos + cs.length : Int) = len)
    (hfuel : cs.length ≤ fuel) : (dictLoop string len any fuel dict pos).Fails := by
  induction pairs generalizing fuel pos cs dict with
  | nil => exact absurd (List.prefix_nil.mp hcs) hne
  | cons p pairs ih =>
      obtain ⟨key, t⟩ := p
      have hpos := List.length_pos_iff.mpr hne
      obtain ⟨fuel, rfl⟩ : ∃ k, fuel = k + 1 := ⟨fuel - 1, by omega⟩
      have hks := hkeys (key, t) List.mem_cons_self
      obtain ⟨c, bs, hbytes⟩ := List.exists_cons_of_ne_nil (Syn.string key).bytes_ne_nil
      have hhead := (Spelled.string hks.toSpelled).head_ne hbytes
      rw [bytesPairs, List.append_assoc] at hcs
      obtain ⟨d, es, rfl⟩ := List.exists_cons_of_ne_nil hne
      obtain rfl : d = c := by
        rw [← Syn.bytes, hbytes, List.cons_append] at hcs
        exact (List.cons_prefix_cons.mp hcs).1
      have hptr : key.value place pos = ⟨some (key.ptr place pos), key.len⟩ := by
        rw [StrText.value, if_pos (hks.allocated_iff.mpr hks.neg_one_le_len)]
      rw [dictLoop, readByte_of_eq hr.1, Result.bind_ok, if_neg hhead]
      rcases prefix_append_cases hcs with ⟨hpre, hlt⟩ | ⟨fs, heq, hpre⟩
      · exact (hkeyCut (key, t) List.mem_cons_self pos _ hpre hlt hn hr hlen).bind
      · rw [heq] at hr hlen hfuel hn
        rw [List.length_append] at hlen hfuel hn
        push_cast at hlen
        obtain ⟨hrk, hr'⟩ := reads_append.mp hr
        have hkeyLen : (key, t).1.bytes.length ≤ n := by
          show key.bytes.length ≤ n
          omega
        have hkrun := hkey (key, t) List.mem_cons_self hkeyLen pos hrk (by
          show (pos + key.bytes.length : Int) ≤ len
          omega)
        rw [Syn.value, hptr, Syn.bytes] at hkrun
        rw [hkrun, Result.bind_ok]
        by_cases hnil : fs = []
        · apply eofCheck_fails
          rw [hnil, List.length_nil] at hlen
          push_cast at hlen ⊢
          omega
        have := List.length_pos_iff.mpr hnil
        rw [eofCheck_of_lt (by push_cast; omega)]
        rcases prefix_append_cases hpre with ⟨hpret, hlt⟩ | ⟨gs, rfl, hprep⟩
        · exact (hcut (key, t) List.mem_cons_self _ _ hpret hlt (by omega) hr'
            (by push_cast; omega)).bind
        · rw [List.length_append] at hlen hfuel hn
          push_cast at hlen
          have htpos := List.length_pos_iff.mpr t.bytes_ne_nil
          obtain ⟨hrt, hrp⟩ := reads_append.mp hr'
          have htlen : (key, t).2.bytes.length ≤ n := by
            show t.bytes.length ≤ n
            omega
          rw [hany (key, t) List.mem_cons_self htlen _ hrt (by push_cast; omega), Result.bind_ok]
          by_cases hnil : gs = []
          · apply eofCheck_fails
            rw [hnil, List.length_nil] at hlen
            push_cast at hlen ⊢
            omega
          · have := List.length_pos_iff.mpr hnil
            rw [eofCheck_of_lt (by push_cast; omega)]
            exact ih (fun q hq => hkeys q (List.mem_cons_of_mem _ hq))
              (fun q hq => hkey q (List.mem_cons_of_mem _ hq))
              (fun q hq => hany q (List.mem_cons_of_mem _ hq))
              (fun q hq => hkeyCut q (List.mem_cons_of_mem _ hq))
              (fun q hq => hcut q (List.mem_cons_of_mem _ hq)) (by omega) hprep hnil hrp
              (by push_cast; omega) (by omega)

/-- A text that is cut before its first byte fails; so it fails wherever it is cut if it fails behind that
byte. -/
theorem failsCut_of_head {t : Syn} {c : UInt8} {tail : List UInt8} {depth n : Nat}
    (ht : t.bytes = c :: tail)
    (h : ∀ pos es, es <+: tail → es.length < tail.length → es.length < n → string pos = some c →
      Reads string (pos + 1) es → (pos + 1 + es.length : Int) = len →
      (bParseAny string len place (depth + 1) pos).Fails) :
    FailsCut string len (bParseAny string len place (depth + 1)) n t := by
  intro pos cs hcs hlt hn hr hlen
  rw [ht] at hcs hlt
  cases cs with
  | nil =>
      apply eofCheck_fails
      rw [List.length_nil] at hlen
      push_cast at hlen
      omega
  | cons c es =>
      obtain ⟨rfl, hpre⟩ := List.cons_prefix_cons.mp hcs
      rw [List.length_cons] at hlen hn
      push_cast at hlen
      exact h pos es hpre (by simpa using hlt) hn hr.1 hr.2 (by omega)

/-- A string that is cut short fails. -/
theorem bParseAny_string_cut (hnul : string len.toNat = some 0) {s : StrText} (hs : s.Spelled)
    (depth n : Nat) : FailsCut string len (bParseAny string len place (depth + 1)) n (.string s) := by
  obtain ⟨first, ds, hds⟩ := List.exists_cons_of_ne_nil hs.ne_nil
  have hfirst : isDigit first = true := hs.digits first (hds ▸ List.mem_cons_self)
  have hbytes : (Syn.string s).bytes = first :: (ds ++ 58 :: s.payload) := by
    rw [Syn.bytes, StrText.bytes, hds, List.cons_append]
  refine failsCut_of_head hbytes fun pos es hpre hlt _ hc hr hlen => ?_
  rw [bParseAny_of_digit hc hfirst (by omega)]
  exact bParseString_cut hnul hs hds hpre hlt hr hlen

/-- **A text that is cut short fails**, if a NUL stands where it is cut. -/
theorem bParseAny_cut (hnul : string len.toNat = some 0) {t : Syn} (h : Spelled t) {depth n : Nat}
    (hdepth : n < depth) : FailsCut string len (bParseAny string len place depth) n t := by
  induction h generalizing depth n with
  | @string s hs =>
      obtain ⟨depth, rfl⟩ : ∃ k, depth = k + 1 := ⟨depth - 1, by omega⟩
      exact bParseAny_string_cut hnul hs depth n
  | @integer neg ds hd =>
      obtain ⟨depth, rfl⟩ : ∃ k, depth = k + 1 := ⟨depth - 1, by omega⟩
      refine failsCut_of_head (by rw [Syn.bytes]) fun pos es hpre hlt _ hc hr hlen => ?_
      rw [bParseAny_of_i hc (by omega)]
      exact bParseInt_cut hnul hd hpre hlt hr hlen
  | @list items hs ih =>
      obtain ⟨depth, rfl⟩ : ∃ k, depth = k + 1 := ⟨depth - 1, by omega⟩
      refine failsCut_of_head (by rw [Syn.bytes]) fun pos es hpre hlt hn hc hr hlen => ?_
      rw [List.length_append, List.length_singleton] at hlt
      rw [bParseAny_of_l hc (by omega), bParseList]
      by_cases hnil : es = []
      · apply eofCheck_fails
        rw [hnil, List.length_nil] at hlen
        push_cast at hlen ⊢
        omega
      have hpos := List.length_pos_iff.mpr hnil
      have hitems := List.prefix_of_prefix_length_le hpre (List.prefix_append _ _) (by omega)
      have hany : ∀ t ∈ items, t.bytes.length ≤ es.length →
          Parses string len place (bParseAny string len place depth) t :=
        fun t ht hle => bParseAny_complete (hs t ht) (by omega)
      rw [eofCheck_of_lt (by push_cast; omega)]
      exact (listLoop_cut hs hany (fun t ht => ih t ht (by omega)) le_rfl hitems hnil hr
        (by push_cast; omega) (by omega)).bind
  | @dict pairs hkeys hs ih =>
      obtain ⟨depth, rfl⟩ : ∃ k, depth = k + 1 := ⟨depth - 1, by omega⟩
      refine failsCut_of_head (by rw [Syn.bytes]) fun pos es hpre hlt hn hc hr hlen => ?_
      rw [List.length_append, List.length_singleton] at hlt
      rw [bParseAny_of_d hc (by omega), bParseDict]
      by_cases hnil : es = []
      · apply eofCheck_fails
        rw [hnil, List.length_nil] at hlen
        push_cast at hlen ⊢
        omega
      have hpos := List.length_pos_iff.mpr hnil
      obtain ⟨depth, rfl⟩ : ∃ k, depth = k + 1 := ⟨depth - 1, by omega⟩
      have hpairs := List.prefix_of_prefix_length_le hpre (List.prefix_append _ _) (by omega)
      have hkey : ∀ p ∈ pairs, p.1.bytes.length ≤ es.length →
          Parses string len place (bParseAny string len place (depth + 1)) (.string p.1) :=
        fun p hp _ => bParseAny_string (hkeys p hp).toSpelled depth
      have hany : ∀ p ∈ pairs, p.2.bytes.length ≤ es.length →
          Parses string len place (bParseAny string len place (depth + 1)) p.2 :=
        fun p hp hle => bParseAny_complete (hs p hp) (by omega)
      rw [eofCheck_of_lt (by push_cast; omega)]
      exact (dictLoop_cut hkeys hkey hany
        (fun p hp => bParseAny_string_cut hnul (hkeys p hp).toSpelled depth _)
        (fun p hp => ih p hp (by omega)) le_rfl hpairs hnil hr (by push_cast; omega)
        (by omega)).bind

/-! ## Cutting what has been parsed -/

/-- **Truncation is detected, and what follows is ignored.** Where a value is parsed from the first
`c` bytes: every memory that starts with these bytes gives the same value, for every length that
covers them; and if the memory holds fewer of them and then a NUL, a code other than `0` is
returned. -/
theorem bencodeParse_cuts {v : BencodeValue} {c : Nat}
    (h : bencodeParse string len place = .ok v c) :
    ∃ bs : List UInt8, bs.length = c ∧ Reads string 0 bs ∧
      (∀ (string' : Nat → Option UInt8) (m : Int), Reads string' 0 bs → (c : Int) ≤ m →
        bencodeParse string' m place = .ok v c) ∧
      (∀ (string' : Nat → Option UInt8) (m : Nat), m < c → Reads string' 0 (bs.take m ++ [0]) →
        (bencodeParse string' m place).Fails) := by
  obtain ⟨t, hs, hr, hc, _, rfl⟩ := bParseAny_text _ 0 v c h
  rw [Nat.zero_add] at hc
  refine ⟨t.bytes, hc.symm, hr, ?_, ?_⟩
  · intro string' m hr' hm
    have := @bParseAny_complete string' m place t hs (m.toNat + 1) (by omega) 0 hr'
      (by push_cast; omega)
    rwa [Nat.zero_add, ← hc] at this
  · intro string' m hm hr'
    obtain ⟨hrt, hnul⟩ := reads_append.mp hr'
    have hlength : (t.bytes.take m).length = m := List.length_take_of_le (by omega)
    rw [hlength, Nat.zero_add] at hnul
    exact bParseAny_cut (n := m) hnul.1 hs (by omega) 0 (t.bytes.take m) (List.take_prefix m t.bytes)
      (by omega) hlength.le hrt (by rw [hlength]; push_cast; omega)

/-- The text `d1:ali7e1:bee`. -/
def nested : Syn := .dict [(⟨[49], [97]⟩, .list [.integer false [55], .string ⟨[49], [98]⟩])]

/-- A string of one byte is spelled so. -/
theorem keySpelled_one (c : UInt8) : StrText.KeySpelled ⟨[49], [c]⟩ := by
  have hlen : StrText.len ⟨[49], [c]⟩ = 1 := by
    show numeral [49] = 1
    decide
  refine ⟨⟨List.cons_ne_nil _ _, List.all_eq_true.mp rfl, ?_, ?_⟩, ?_⟩
  · rw [hlen]
    rfl
  · rw [hlen]
    decide
  · rw [hlen]
    decide

/-- The parser takes it. -/
theorem spelled_nested : Spelled nested := by
  have hitems : ∀ t ∈ [Syn.integer false [55], .string ⟨[49], [98]⟩], Spelled t :=
    List.forall_mem_cons.mpr ⟨.integer (List.all_eq_true.mp rfl),
      List.forall_mem_singleton.mpr (.string (keySpelled_one 98).toSpelled)⟩
  exact .dict (List.forall_mem_singleton.mpr (keySpelled_one 97))
    (List.forall_mem_singleton.mpr (.list hitems))

/-- Parsed from its 13 bytes it is this value, from any memory that starts with them too, and from no
fewer of them. -/
theorem bencodeParse_cuts_example :
    bencodeParse (only nested.bytes) 13 (fun _ => 0) = .ok (nested.value (fun _ => 0) 0) 13 ∧
      ∃ bs : List UInt8, bs.length = 13 ∧ Reads (only nested.bytes) 0 bs ∧
        (∀ (string' : Nat → Option UInt8) (m : Int), Reads string' 0 bs → 13 ≤ m →
          bencodeParse string' m (fun _ => 0) = .ok (nested.value (fun _ => 0) 0) 13) ∧
        (∀ (string' : Nat → Option UInt8) (m : Nat), m < 13 → Reads string' 0 (bs.take m ++ [0]) →
          (bencodeParse string' m (fun _ => 0)).Fails) := by
  have hparse : bencodeParse (only nested.bytes) 13 (fun _ => 0) =
      .ok (nested.value (fun _ => 0) 0) 13 :=
    @bParseAny_complete (only nested.bytes) 13 (fun _ => 0) nested spelled_nested 14 (by decide) 0
      (reads_only _) (by decide)
  exact ⟨hparse, bencodeParse_cuts hparse⟩

end Flood.Bencode
