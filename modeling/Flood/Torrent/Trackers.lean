import Flood.Torrent.Represents

/-!
# The URLs of the trackers

What `prepare_trackers` makes of a metainfo file with trackers, in memory.

* `TrackersShaped dict`, `TiersCounted dict` — the trackers are strings and non-empty lists of
  strings; an `int` counts them.
* `expectedUrls dict` — the first URL of each tier, and then the URL of `announce`.
* `prepareTrackers_of_counted` — the run completes, and the first `tracker_count` slots are the
  expected URLs; `tiersCounted_of_prepareTrackers` — it completes only if an `int` counts the tiers.
-/

namespace Flood.Torrent.Heap

open Flood.Lib Flood.Hashtable Flood.LinkedList Flood.Bencode

variable {m : Memory} {p q bencode : UInt64} {v e : BencodeValue} {dict : BencodeDict}
  {elems : List BencodeValue} {K : Set UInt64} {t : TorrentT}

/-- The trackers of a metainfo file: there may be tiers, and there may be `announce`. -/
structure TrackersShaped (dict : BencodeDict) : Prop where
  /-- A list of lists of strings, one at least in each. -/
  announceList : ∀ v, Torrent.lookup dict announceListKey = some v →
    ∃ tiers, listOf v = some tiers ∧ ∀ tier ∈ tiers, SomeStrings tier
  /-- A string. -/
  announce : ∀ v, Torrent.lookup dict announceKey = some v → (stringOf v).isSome

/-- Less than `INT_MAX` tiers, each of at most `INT_MAX` URLs. -/
def TiersCounted (dict : BencodeDict) : Prop :=
  ∀ v tiers, Torrent.lookup dict announceListKey = some v → listOf v = some tiers →
    (tiers.length : Int) < intMax ∧
      ∀ tier ∈ tiers, ∀ urls, listOf tier = some urls → (urls.length : Int) ≤ intMax

/-- The first URL of each tier, and then the URL of `announce`. -/
def expectedUrls (dict : BencodeDict) : Option (List (Option CharPtr)) := do
  let listed ← announceListUrls dict
  let announced ← announceUrls dict
  some (listed ++ announced)

/-- The expected URLs are those that the loader of values collects. -/
theorem prepareTrackers_eq_expectedUrls (hv : dictOf v = some dict) (t : Torrent.TorrentT) :
    Torrent.prepareTrackers v t = (expectedUrls dict).map fun urls => { t with trackerUrls := urls } := by
  unfold Torrent.prepareTrackers expectedUrls
  rw [hv, Option.bind_eq_bind, Option.bind_some]
  cases announceListUrls dict with
  | none => rfl
  | some listed =>
      cases announceUrls dict with
      | none => rfl
      | some announced => rfl

/-! ## The loop over the tiers -/

/-- The slot of a tier. `list_get` delivers nothing if the counter is not positive. -/
def tierSlot (tier : BencodeValue) : Option UrlSlot := do
  let urls ← listOf tier
  if 0 < wrap32 urls.length then (trackerUrl tier).map some else none

/-- No value is at the address `3`. -/
theorem string_three (m : Memory) : m.string 3 = none := by
  cases hobj : m.objects 3 with
  | none => rw [Memory.string, hobj]
  | some o =>
      obtain ⟨halign, -⟩ := m.aligned 3 (by rw [hobj]; rfl)
      exact absurd halign (by decide)

/-- A counter is an `int`. -/
theorem length_le_of_pos {l : ListT} {ps : List Nat} {xs : List Elem} (hl : Linked l ps xs)
    (hpos : 0 < l.len) : (xs.length : Int) ≤ intMax := by
  have hfits : FitsInt l.len := by
    rw [hl.len]
    exact fitsInt_wrap32 _
  exact (hl.length_of_pos hpos).trans_le hfits.2

/-- `list_get` of the first element. -/
theorem listGet_zero {l : ListT} {ps : List Nat} {xs : List Elem} (hl : Linked l ps xs) :
    ∃ l', listGet l 0 = some (if 0 < l.len then xs.head? else none, l') := by
  by_cases hpos : 0 < l.len
  · obtain ⟨val, l', hrun, -, -, hreply⟩ := listGet_spec 0 hl
    have hval := hreply (length_le_of_pos hl hpos)
    rw [SeqOp.reply, if_pos le_rfl, Int.toNat_zero, ← List.head?_eq_getElem?] at hval
    exact ⟨l', by rw [if_pos hpos, hrun, SeqReply.elem.inj hval]⟩
  · exact ⟨l, by rw [if_neg hpos, listGet, if_pos (.inr (not_lt.mp hpos))]⟩

/-- The first element of a tier, or the address that was there before. -/
theorem getFirst_spec (hrep : Represents m q e) (hv : listOf e = some elems) (hne : elems ≠ [])
    (hq : q ∉ K) (first : UInt64) :
    ∃ p m', m.getFirst q first = some (p, m') ∧ Keeps K m m' ∧
      (0 < wrap32 elems.length → ∃ v, elems.head? = some v ∧ Represents m' p v) ∧
      (¬ 0 < wrap32 elems.length → p = first) := by
  obtain ⟨l, ps, qs, hl, hlinked, helems⟩ := hrep.list_eq hv
  obtain ⟨l', hget⟩ := listGet_zero hlinked
  have hlen : l.len = wrap32 elems.length := by
    rw [hlinked.len, List.length_map, helems.length_eq]
  have hk : Keeps K m (m.setList q l') := keeps_setList hl (.get hget) hq
  rw [Memory.getFirst, hl, Option.bind_eq_bind, Option.bind_some, hget, ← hlen]
  cases helems with
  | nil => exact absurd rfl hne
  | @cons q₀ v qs elems hrep₀ _ =>
      by_cases hpos : 0 < l.len
      · rw [if_pos hpos]
        refine ⟨leWord64 (leBytes64 q₀), _, rfl, hk, fun _ => ⟨v, rfl, ?_⟩, fun h => absurd hpos h⟩
        rw [leWord64_leBytes64]
        exact hrep₀.keeps hk
      · rw [if_neg hpos]
        exact ⟨first, _, rfl, hk, fun h => absurd h hpos, fun _ => rfl⟩

/-- **A turn of the loop** writes the first URL of the tier to its slot. -/
theorem readTracker_refines (hrep : Represents m q e) (he : SomeStrings e) (hq : q ∉ K)
    (s : Int × List UrlSlot) : Refines K m (readTracker q m s) (fill tierSlot e s) := by
  obtain ⟨urls, hurls, hne, hstrings⟩ := he
  obtain ⟨p, m', hget, hk, hpos, hneg⟩ := getFirst_spec hrep hurls hne hq 3
  rw [readTracker, hget, Option.bind_eq_bind, Option.bind_some]
  dsimp only
  by_cases hlen : 0 < wrap32 urls.length
  · obtain ⟨url, hurl, hrep'⟩ := hpos hlen
    obtain ⟨str, hstr⟩ := Option.isSome_iff_exists.mp (hstrings url (List.mem_of_mem_head? hurl))
    have hslot : tierSlot e = some (some str.ptr) := by
      rw [tierSlot, hurls, Option.bind_eq_bind, Option.bind_some, if_pos hlen, trackerUrl, hurls,
        Option.bind_eq_bind, Option.bind_some, hurl, Option.bind_eq_bind, Option.bind_some, hstr]
      rfl
    rw [fill_of_some hslot, hrep'.string_eq hstr, Option.bind_eq_bind, Option.bind_some]
    cases setSlot s.2 s.1 (some str.ptr) with
    | none => exact rfl
    | some a => exact ⟨m', rfl, hk⟩
  · have hslot : tierSlot e = none := by
      rw [tierSlot, hurls, Option.bind_eq_bind, Option.bind_some, if_neg hlen]
    rw [fill_of_none hslot, hneg hlen, string_three]
    exact rfl

/-! ## The whole -/

/-- `tracker_count` and `tracker_urls` behind the announce list. -/
def listedSlots (dict : BencodeDict) : Option (Int × List UrlSlot) :=
  match Torrent.lookup dict announceListKey with
  | some announceList => do
      let tiers ← listOf announceList
      let slots ← setSlot (allocate (wrap32 (wrap32 tiers.length + 1)) sizeofPtr none)
        (wrap32 tiers.length) (some none)
      let (_, _, slots) ← through (fill tierSlot) tiers (0, slots)
      some (wrap32 tiers.length, slots)
  | none => some (0, allocate 1 sizeofPtr none)

/-- `tracker_count` and `tracker_urls` in the end. -/
def announcedSlots (dict : BencodeDict) (s : Int × List UrlSlot) : Option (Int × List UrlSlot) :=
  match Torrent.lookup dict announceKey with
  | some announce => do
      let str ← stringOf announce
      let slots ← setSlot s.2 s.1 (some str.ptr)
      some (wrap32 (s.1 + 1), slots)
  | none => some s

/-- The announce list in memory. -/
theorem readAnnounceList_refines {tbl : Table CharPtr UInt64} (h : TrackersShaped dict)
    (hnone : ∀ key, Torrent.lookup dict key = none → lookup tbl key = none)
    (hsome : ∀ key w, Torrent.lookup dict key = some w →
      ∃ q, lookup tbl key = some q ∧ Represents m q w) :
    match listedSlots dict with
    | none => readAnnounceList m tbl = none
    | some s => ∃ m', readAnnounceList m tbl = some (m', s) ∧ Keeps ∅ m m' := by
  rw [listedSlots, readAnnounceList]
  cases hfound : Torrent.lookup dict announceListKey with
  | none =>
      rw [hnone _ hfound]
      exact ⟨m, rfl, .refl ∅ m⟩
  | some w =>
      obtain ⟨tiers, htiers, hshaped⟩ := h.announceList w hfound
      obtain ⟨p, hp, hrep⟩ := hsome _ w hfound
      obtain ⟨l, hl, hlen⟩ := hrep.listLen_eq htiers
      have hothers : ∀ tier ∈ tiers, stringOf tier = none := fun tier htier => by
        obtain ⟨urls, hurls, -⟩ := hshaped tier htier
        cases tier with
        | string _ _ _ => cases hurls
        | integer _ _ _ => rfl
        | list _ _ _ => rfl
        | dict _ _ _ => rfl
      rw [hp]
      dsimp only
      rw [hl, htiers, @Option.bind_eq_bind (List BencodeValue), Option.bind_some,
        @Option.bind_eq_bind ListT, Option.bind_some, hlen]
      generalize wrap32 tiers.length = trackerCount
      generalize allocate (wrap32 (trackerCount + 1)) sizeofPtr (none : UrlSlot) = unset
      cases setSlot unset trackerCount (some none) with
      | none => exact rfl
      | some slots =>
          -- no tier is the announce list itself
          have hloop : Refines ∅ m (forEach p readTracker m (0, slots))
              (through (fill tierSlot) tiers (0, slots)) := by
            refine forEach_refines hrep htiers (Set.notMem_empty _) (fun q e m' s he hk hrep' => ?_) _
            obtain ⟨urls, hurls, hne, hstrings⟩ := hshaped e he
            refine readTracker_refines hrep' (hshaped e he) ?_ s
            rintro (rfl | hmem)
            · exact (hrep.keeps hk).ne_of_strings htiers hrep' hurls hothers hstrings hne rfl
            · exact hmem
          dsimp only [Option.bind_eq_bind, Option.bind_some]
          cases hthrough : through (fill tierSlot) tiers (0, slots) with
          | none =>
              rw [hthrough] at hloop
              rw [show forEach p readTracker m (0, slots) = none from hloop]
              exact rfl
          | some r =>
              rw [hthrough] at hloop
              obtain ⟨m', hrun, hk⟩ := hloop
              rw [hrun]
              exact ⟨m', rfl, hk⟩

/-- **The trackers in memory** are those of the loops over values. -/
theorem prepareTrackers_eq (hrep : Represents m bencode v) (hv : dictOf v = some dict)
    (h : TrackersShaped dict) (t : TorrentT) :
    (prepareTrackers m bencode t).map Prod.snd =
      ((listedSlots dict).bind (announcedSlots dict)).map fun s =>
        { t with trackerCount := s.1, trackerUrls := s.2 } := by
  obtain ⟨tbl, htbl, hnone, hsome⟩ := hrep.dict_eq hv
  have hlist := readAnnounceList_refines h hnone hsome
  rw [prepareTrackers, htbl, Option.bind_eq_bind, Option.bind_some]
  cases hlisted : listedSlots dict with
  | none =>
      rw [hlisted] at hlist
      dsimp only at hlist
      rw [hlist]
      rfl
  | some s =>
      rw [hlisted] at hlist
      obtain ⟨m', hrun, hk⟩ := hlist
      rw [hrun, Option.bind_eq_bind, Option.bind_some, Option.bind_some, announcedSlots]
      dsimp only
      cases hfound : Torrent.lookup dict announceKey with
      | none =>
          rw [hnone _ hfound]
          rfl
      | some w =>
          obtain ⟨q, hq, hrepq⟩ := hsome _ w hfound
          obtain ⟨str, hstr⟩ := Option.isSome_iff_exists.mp (h.announce w hfound)
          rw [hq]
          dsimp only
          rw [(hrepq.keeps hk).string_eq hstr, hstr]
          dsimp only [Option.bind_eq_bind, Option.bind_some]
          cases setSlot s.2 s.1 (some str.ptr) with
          | none => rfl
          | some slots => rfl

/-! ## What the arrays hold -/

/-- The counter of a list that is in memory is positive if an `int` counts the elements. -/
theorem wrap32_pos_iff {n : Nat} (hpos : 0 < n) (hle : n ≤ 2 ^ 32) :
    0 < wrap32 n ↔ (n : Int) ≤ intMax := by
  unfold wrap32 intMax
  split_ifs <;> omega

/-- The slot of a tier is its first URL. -/
theorem tierSlot_eq {urls : List BencodeValue} (he : SomeStrings e) (hurls : listOf e = some urls)
    (hmax : (urls.length : Int) ≤ intMax) : tierSlot e = (trackerUrl e).map some := by
  obtain ⟨urls', hurls', hne, -⟩ := he
  obtain rfl := Option.some.inj (hurls.symm.trans hurls')
  have hpos : 0 < wrap32 urls.length := by
    rw [wrap32_natCast hmax]
    exact Nat.cast_pos.mpr (List.length_pos_of_ne_nil hne)
  rw [tierSlot, hurls, Option.bind_eq_bind, Option.bind_some, if_pos hpos]

/-- The slots of the tiers are their first URLs. -/
theorem tierSlots {tiers : List BencodeValue} {listed : List (Option CharPtr)}
    (hshaped : ∀ tier ∈ tiers, SomeStrings tier)
    (hurls : ∀ tier ∈ tiers, ∀ urls, listOf tier = some urls → (urls.length : Int) ≤ intMax)
    (hlisted : tiers.mapM trackerUrl = some listed) :
    List.Forall₂ (fun tier slot => tierSlot tier = some slot) tiers (listed.map some) := by
  rw [List.forall₂_map_right_iff]
  have hread := mapM_eq_some_iff.mp hlisted
  refine ((List.forall₂_and_left _ _).mpr ⟨fun tier htier => htier, hread⟩).imp ?_
  rintro tier url ⟨htier, hurl⟩
  obtain ⟨urls, hlist, -⟩ := hshaped tier htier
  rw [tierSlot_eq (hshaped tier htier) hlist (hurls tier htier urls hlist), hurl]
  rfl

/-- The array for less than `INT_MAX` tiers has one slot more, which is written first. -/
theorem setSlot_allocate {n : Nat} (hmax : (n : Int) < intMax) :
    setSlot (allocate (wrap32 (wrap32 n + 1)) sizeofPtr (none : UrlSlot)) (wrap32 n) (some none) =
      some (List.replicate n none ++ [some none]) := by
  have hnext : wrap32 ((n : Int) + 1) = ((n + 1 : Nat) : Int) := by
    rw [← Nat.cast_succ]
    exact wrap32_natCast hmax
  have halloc : allocate ((n + 1 : Nat) : Int) sizeofPtr (none : UrlSlot) =
      List.replicate n none ++ [none] := by
    rw [← List.replicate_succ']
    exact allocate_of_le_intMax hmax (by decide) (by decide) none
  have hlast := setSlot_seam (List.replicate n (none : UrlSlot)) [] none (some none)
  rw [List.length_replicate] at hlast
  rw [wrap32_natCast hmax.le, hnext, halloc, hlast]

/-- The announce list is read, if an `int` counts it: the URLs, and one more slot. -/
theorem listedSlots_of_counted (h : TrackersShaped dict) (hc : TiersCounted dict) :
    ∃ listed last, announceListUrls dict = some listed ∧ (listed.length : Int) < intMax ∧
      listedSlots dict = some ((listed.length : Int), listed.map some ++ [last]) := by
  rw [announceListUrls, listedSlots]
  cases hfound : Torrent.lookup dict announceListKey with
  | none => exact ⟨[], none, rfl, by decide, rfl⟩
  | some w =>
      obtain ⟨tiers, htiers, hshaped⟩ := h.announceList w hfound
      obtain ⟨hmax, hurls⟩ := hc w tiers hfound htiers
      obtain ⟨listed, hlisted⟩ := Option.isSome_iff_exists.mp
        (mapM_isSome fun tier htier => trackerUrl_isSome (hshaped tier htier))
      have hcount : listed.length = tiers.length := (mapM_eq_some_iff.mp hlisted).length_eq.symm
      have hfill := @through_fill _ _ [] (List.replicate tiers.length none ++ [some none]) _ _ _
        (tierSlots hshaped hurls hlisted)
        (by rw [List.length_append, List.length_replicate]; exact Nat.le_add_right _ _)
        (by rw [List.length_nil, Nat.zero_add]; exact hmax.le)
      have hdrop : (List.replicate tiers.length (none : UrlSlot) ++ [some none]).drop tiers.length =
          [some none] := by
        rw [List.drop_append_of_le_length (by rw [List.length_replicate]), List.drop_replicate,
          Nat.sub_self]
        rfl
      rw [hdrop, List.nil_append, List.nil_append, List.length_nil, Nat.cast_zero] at hfill
      dsimp only
      rw [htiers, Option.bind_eq_bind, Option.bind_some]
      refine ⟨listed, some none, hlisted, by rwa [hcount], ?_⟩
      rw [Option.bind_eq_bind, Option.bind_some, setSlot_allocate hmax, Option.bind_eq_bind,
        Option.bind_some, hfill, hcount, wrap32_natCast hmax.le]
      rfl

/-- The URL of `announce` goes to the last slot. -/
theorem announcedSlots_of_counted (h : TrackersShaped dict) {listed : List (Option CharPtr)}
    (last : UrlSlot) (hmax : (listed.length : Int) < intMax) :
    ∃ announced rest, announceUrls dict = some announced ∧
      ((listed ++ announced).length : Int) ≤ intMax ∧
      announcedSlots dict ((listed.length : Int), listed.map some ++ [last]) =
        some (((listed ++ announced).length : Int), (listed ++ announced).map some ++ rest) := by
  rw [announceUrls, announcedSlots]
  cases hfound : Torrent.lookup dict announceKey with
  | none =>
      refine ⟨[], [last], rfl, ?_, ?_⟩
      · rw [List.append_nil]
        exact hmax.le
      · rw [List.append_nil]
  | some w =>
      obtain ⟨str, hstr⟩ := Option.isSome_iff_exists.mp (h.announce w hfound)
      have hset := setSlot_seam (listed.map some) [] last (some str.ptr)
      rw [List.length_map] at hset
      have hle : ((listed ++ [str.ptr]).length : Int) ≤ intMax := by
        rw [List.length_append, List.length_singleton, Nat.cast_succ]
        exact hmax
      have hnext : wrap32 ((listed.length : Int) + 1) = ((listed ++ [str.ptr]).length : Nat) := by
        rw [List.length_append, List.length_singleton] at hle ⊢
        rw [← Nat.cast_succ]
        exact wrap32_natCast hle
      dsimp only
      rw [hstr, Option.bind_eq_bind, Option.bind_some]
      refine ⟨[str.ptr], [], rfl, hle, ?_⟩
      rw [Option.bind_eq_bind, Option.bind_some, hset, Option.bind_eq_bind, Option.bind_some, hnext,
        List.append_nil, List.map_append]
      rfl

/-- **The trackers, if an `int` counts them.** The run completes, and the first `tracker_count` slots
are the expected URLs. -/
theorem prepareTrackers_of_counted (hrep : Represents m bencode v) (hv : dictOf v = some dict)
    (h : TrackersShaped dict) (hc : TiersCounted dict) (t : TorrentT) :
    ∃ m' t' urls rest, prepareTrackers m bencode t = some (m', t') ∧ expectedUrls dict = some urls ∧
      (urls.length : Int) ≤ intMax ∧ t'.trackerCount = urls.length ∧ t'.trackerUrls = urls.map some ++ rest := by
  obtain ⟨listed, last, hlisted, hmax, hslots⟩ := listedSlots_of_counted h hc
  obtain ⟨announced, rest, hannounced, hle, hslots'⟩ := announcedSlots_of_counted h last hmax
  have heq := prepareTrackers_eq hrep hv h t
  rw [hslots, Option.bind_some, hslots', Option.map_some, Option.map_eq_some_iff] at heq
  obtain ⟨⟨m', t'⟩, hrun, rfl⟩ := heq
  refine ⟨m', _, listed ++ announced, rest, hrun, ?_, hle, rfl, rfl⟩
  rw [expectedUrls, hlisted, hannounced]
  rfl

/-! ## More trackers than an `int` counts -/

/-- A list in memory has at most `2 ^ 32` elements, and each of them is in memory. -/
theorem Represents.each (hrep : Represents m p v) (hv : listOf v = some elems) :
    elems.length ≤ 2 ^ 32 ∧ ∀ e ∈ elems, ∃ q, Represents m q e := by
  obtain ⟨l, ps, qs, -, hlinked, helems⟩ := hrep.list_eq hv
  have hbound := hlinked.bound
  rw [List.length_map, helems.length_eq] at hbound
  refine ⟨hbound, fun e he => ?_⟩
  obtain ⟨i, hi, rfl⟩ := List.getElem_of_mem he
  have hi' : i < qs.length := by rwa [helems.length_eq]
  exact ⟨qs[i], helems.get hi' hi⟩

/-- The last slot is written only if the counter is neither negative nor `INT_MAX`; there is one
slot more than it says. -/
theorem length_of_setSlot {c : Int} {slots : List UrlSlot} (hfits : c ≤ intMax)
    (hset : setSlot (allocate (wrap32 (c + 1)) sizeofPtr (none : UrlSlot)) c (some none) =
      some slots) : 0 ≤ c ∧ c < intMax ∧ (slots.length : Int) = c + 1 := by
  rw [setSlot_eq_some_iff] at hset
  have hlo : 0 ≤ c := hset.1.1
  have hlen : slots.length = (allocate (wrap32 (c + 1)) sizeofPtr (none : UrlSlot)).length := by
    rw [hset.2, List.length_set]
  rcases hfits.lt_or_eq with hlt | rfl
  · have hnext : wrap32 (c + 1) = (c.toNat + 1 : Nat) := by
      rw [Nat.cast_succ, Int.toNat_of_nonneg hlo]
      apply wrap32_of_fits
      unfold FitsInt intMin
      omega
    have halloc : (allocate (wrap32 (c + 1)) sizeofPtr (none : UrlSlot)).length = c.toNat + 1 := by
      have hcount : ((c.toNat + 1 : Nat) : Int) ≤ intMax := by
        rw [Nat.cast_succ, Int.toNat_of_nonneg hlo]
        exact hlt
      rw [hnext, allocate_of_le_intMax hcount (by decide) (by decide), List.length_replicate]
    refine ⟨hlo, hlt, ?_⟩
    rw [hlen, halloc, Nat.cast_succ, Int.toNat_of_nonneg hlo]
  · -- there is no block of that size
    have halloc : allocate (wrap32 (intMax + 1)) sizeofPtr (none : UrlSlot) = [] :=
      allocate_neg (by decide) (by decide) (by decide) (by decide) _
    have hhi := hset.1.2
    rw [halloc, List.length_nil] at hhi
    exact absurd hhi (by decide)

/-- A counter that is not much less than the number is the number. -/
theorem wrap32_eq_of_le {n : Nat} (hle : n ≤ 2 ^ 32) (hlo : 0 ≤ wrap32 n)
    (h : (n : Int) ≤ wrap32 n + 1) : wrap32 n = n := by
  unfold wrap32 at h hlo ⊢
  split_ifs at h hlo ⊢ <;> omega

/-- **The run completes only if an `int` counts the trackers.** -/
theorem tiersCounted_of_prepareTrackers (hrep : Represents m bencode v) (hv : dictOf v = some dict)
    (h : TrackersShaped dict) {r : Memory × TorrentT} (hrun : prepareTrackers m bencode t = some r) :
    TiersCounted dict := by
  have heq := prepareTrackers_eq hrep hv h t
  rw [hrun, Option.map_some, eq_comm, Option.map_eq_some_iff] at heq
  obtain ⟨s, hs, -⟩ := heq
  obtain ⟨s', hlisted, -⟩ := Option.bind_eq_some_iff.mp hs
  intro w tiers hfound htiers
  obtain ⟨tbl, -, -, hsome⟩ := hrep.dict_eq hv
  obtain ⟨p, -, hrepList⟩ := hsome _ w hfound
  obtain ⟨hle, hmem⟩ := hrepList.each htiers
  obtain ⟨tiers', htiers', hshaped⟩ := h.announceList w hfound
  obtain rfl := Option.some.inj (htiers.symm.trans htiers')
  rw [listedSlots, hfound] at hlisted
  dsimp only at hlisted
  rw [htiers, Option.bind_eq_bind, Option.bind_some] at hlisted
  obtain ⟨slots, hset, hlisted⟩ := Option.bind_eq_some_iff.mp hlisted
  obtain ⟨r', hthrough, -⟩ := Option.bind_eq_some_iff.mp hlisted
  obtain ⟨hlo, hlt, hslots⟩ := length_of_setSlot (fitsInt_wrap32 _).2 hset
  obtain ⟨hall, hroom⟩ := of_through_fill hthrough le_rfl (hslots.trans_le hlt)
  have hmax : (tiers.length : Int) < intMax := by
    have hcount : (tiers.length : Int) ≤ slots.length := by
      rcases hroom with rfl | hroom
      · exact Int.natCast_nonneg _
      · rwa [zero_add] at hroom
    have hsucc := hcount.trans_eq hslots
    exact (wrap32_eq_of_le hle hlo hsucc).symm.trans_lt hlt
  refine ⟨hmax, fun tier htier urls hurls => ?_⟩
  obtain ⟨slot, hslot⟩ := Option.isSome_iff_exists.mp (hall tier htier)
  obtain ⟨q, hrepTier⟩ := hmem tier htier
  obtain ⟨urls', hurls', hne, -⟩ := hshaped tier htier
  obtain rfl := Option.some.inj (hurls.symm.trans hurls')
  rw [← wrap32_pos_iff (List.length_pos_of_ne_nil hne) (hrepTier.each hurls).1]
  by_contra hpos
  rw [tierSlot, hurls, Option.bind_eq_bind, Option.bind_some, if_neg hpos] at hslot
  cases hslot

end Flood.Torrent.Heap
