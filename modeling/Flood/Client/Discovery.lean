import Flood.LinkedList.Iterate
import Flood.Peer.Bitfield
import Flood.Tracker.Announce
import Mathlib.Data.List.Nodup

/-!
# `client_find_peer`

The peers of a client: a list of pointers, and the peers they point to.

* `clientFindPeer` — a tracker reports a peer. The scan copies each element, a pointer, to the start
  of a `peer_t` and compares the low half of the pointer with the address reported.
* `Holds c qs` — the list has the peers made for the reports `qs`; `clientFindPeer_spec` is what a
  report does to it.
* `Deduplicated` — one entry for each address reported, made for its first report.
* `deduplicated_iff` — the peers are deduplicated throughout exactly if the pointers happen to tell
  the reports apart (`Distinguishes`).
-/

namespace Flood.Client

open Flood.Lib Flood.LinkedList Flood.Peer
open Flood.Tracker (DiscoveredPeer)

/-- What `malloc(sizeof(peer_t))` returns. -/
structure Block where
  /-- The address of the block. -/
  addr : UInt64
  /-- What the block holds where the status of the peer is. -/
  status : PeerStatus
  deriving DecidableEq

/-- The peers of a client. Its configuration, torrent and trackers play no part here.
Source: `client.h`, `client_t` -/
structure ClientT where
  /-- The list of pointers to peers. -/
  peers : ListT
  /-- The peers allocated, with their addresses. -/
  blocks : List (UInt64 × PeerT)

/-- A client with no peers; a pointer has 8 bytes.
Source: `client.c`, `client_init` -/
def clientInit : ClientT := ⟨listNew 8, []⟩

/-- The `while` loop of `client_find_peer`: is there an element whose first four bytes, where the
local `peer` has its `ip_address`, are the address reported? -/
def scanLoop (ip : UInt32) : Nat → ListT → Option (Bool × ListT)
  | 0, list => if listIterHasNext list then none else some (false, list)
  | fuel + 1, list =>
      if listIterHasNext list then do
        let (data, list) ← listIterNext list
        let data ← data
        if leWord (data.take 4) = ip then some (true, list) else scanLoop ip fuel list
      else some (false, list)

/-- A tracker reports a peer; `block` is what `malloc` returns if the peer is new.
Source: `client.c`, `client_find_peer` -/
def clientFindPeer (c : ClientT) (report : DiscoveredPeer × Block) : Option ClientT := do
  let (found, list) ← scanLoop report.1.ip c.peers.heap.length (listIterStartSafe c.peers)
  if found then some { c with peers := listIterStopSafe list }
  else do
    let list ← listAppend (listIterStopSafe list) (leBytes64 report.2.addr)
    some { c with
      peers := list
      blocks := c.blocks ++
        [(report.2.addr, newPeer report.1.ip report.1.port report.2.status)] }

/-- Reports in order. -/
def findAll (c : ClientT) (reports : List (DiscoveredPeer × Block)) : Option ClientT :=
  reports.foldlM clientFindPeer c

/-- The peers the list points to, in order. -/
def entries (c : ClientT) : Option (List PeerT) := do
  let elems ← forward c.peers
  elems.mapM fun e => c.blocks.lookup (leWord64 e)

/-! ## What the list holds -/

variable {c c' : ClientT} {qs reports : List (DiscoveredPeer × Block)}
  {r : DiscoveredPeer × Block}

/-- The peer made for a report. -/
def peerOf (r : DiscoveredPeer × Block) : PeerT := newPeer r.1.ip r.1.port r.2.status

/-- The list has the peers made for the reports `qs`. -/
structure Holds (c : ClientT) (qs : List (DiscoveredPeer × Block)) : Prop where
  /-- The elements are the pointers. -/
  linked : ∃ ps, Linked c.peers ps (qs.map fun q => leBytes64 q.2.addr)
  /-- An element is a pointer. -/
  elemSize : c.peers.elemSize = 8
  /-- They point to the peers. -/
  lookup : ∀ q ∈ qs, c.blocks.lookup q.2.addr = some (peerOf q)

/-- The fresh client has no peers. -/
theorem holds_init : Holds clientInit [] := ⟨⟨[], Linked.listNew 8⟩, rfl, by simp⟩

/-- Following the pointers gives the peers. -/
theorem Holds.entries_eq (hh : Holds c qs) : entries c = some (qs.map peerOf) := by
  obtain ⟨ps, hl⟩ := hh.linked
  rw [entries, forward_spec hl, Option.bind_eq_bind, Option.bind_some]
  have hlookup := hh.lookup
  clear hh hl
  induction qs with
  | nil => rfl
  | cons q qs ih =>
      rw [List.map_cons, List.mapM_cons, leWord64_leBytes64, hlookup q List.mem_cons_self,
        ih fun q' hq' => hlookup q' (List.mem_cons_of_mem q hq')]
      rfl

/-- The low half of a pointer to one of the peers is the address. -/
def Mistaken (qs : List (DiscoveredPeer × Block)) (ip : UInt32) : Prop :=
  ∃ q ∈ qs, q.2.addr.toUInt32 = ip

instance (qs : List (DiscoveredPeer × Block)) (ip : UInt32) : Decidable (Mistaken qs ip) :=
  inferInstanceAs (Decidable (∃ q ∈ qs, _))

/-- The reports whose peers the list has after one more report. A counter at zero makes
`list_append` start anew. -/
def noted (qs : List (DiscoveredPeer × Block)) (r : DiscoveredPeer × Block) :
    List (DiscoveredPeer × Block) :=
  if Mistaken qs r.1.ip then qs else if wrap32 qs.length = 0 then [r] else qs ++ [r]

/-- The scan looks through the elements that are left. -/
theorem scanLoop_spec {list : ListT} {ps : List Nat} {xs : List Elem} {k fuel : Nat} (ip : UInt32)
    (hl : Linked list ps xs) (hs : Stands list ps k) (hfuel : xs.length ≤ fuel + k) :
    ∃ list', scanLoop ip fuel list =
        some ((xs.drop k).any fun x => leWord (x.take 4) = ip, list') ∧
      Linked list' ps xs ∧ list'.elemSize = list.elemSize := by
  induction fuel generalizing list k with
  | zero =>
      have hend : ¬ listIterHasNext list = true := by
        rw [listIterHasNext_iff hl hs]
        omega
      rw [scanLoop, if_neg hend, List.drop_eq_nil_of_le (by omega)]
      exact ⟨list, rfl, hl, rfl⟩
  | succ fuel ih =>
      rw [scanLoop]
      rcases Nat.lt_or_ge k xs.length with hlt | hge
      · obtain ⟨list₁, hnext, hl₁, hs₁, _, he₁⟩ := listIterNext_spec hl hs
        rw [if_pos ((listIterHasNext_iff hl hs).mpr hlt), hnext, List.getElem?_eq_getElem hlt,
          List.drop_eq_getElem_cons hlt, List.any_cons]
        show ∃ list', (if leWord (xs[k].take 4) = ip then _ else _) = _ ∧ _
        split_ifs with hip
        · refine ⟨list₁, ?_, hl₁, he₁⟩
          simp [hip]
        · obtain ⟨list', hrun, hl', he⟩ := ih hl₁ hs₁ (by omega)
          refine ⟨list', ?_, hl', he.trans he₁⟩
          rw [hrun]
          simp [hip]
      · rw [if_neg (by rw [listIterHasNext_iff hl hs]; omega), List.drop_eq_nil_of_le hge]
        exact ⟨list, rfl, hl, rfl⟩

/-- **One report.** -/
theorem clientFindPeer_spec (hh : Holds c qs) (hfresh : c.blocks.lookup r.2.addr = none) :
    ∃ c', clientFindPeer c r = some c' ∧ Holds c' (noted qs r) := by
  obtain ⟨ps, hl⟩ := hh.linked
  have hstart : Linked (listIterStartSafe c.peers) ps (qs.map fun q => leBytes64 q.2.addr) :=
    hl.congr rfl rfl rfl rfl rfl
  have hfuel : (qs.map fun q => leBytes64 q.2.addr).length ≤ c.peers.heap.length + 0 := by
    rw [← hl.length_eq]
    exact Chain.length_le hl.chain.forward
  obtain ⟨list₁, hscan, hl₁, he₁⟩ :=
    scanLoop_spec r.1.ip hstart (stands_zero hstart rfl) hfuel
  have hstop : Linked (listIterStopSafe list₁) ps (qs.map fun q => leBytes64 q.2.addr) :=
    hl₁.congr rfl rfl rfl rfl rfl
  have hsize : (listIterStopSafe list₁).elemSize = 8 := he₁.trans hh.elemSize
  have hany : (((qs.map fun q => leBytes64 q.2.addr).drop 0).any
      fun x => leWord (x.take 4) = r.1.ip) = decide (Mistaken qs r.1.ip) := by
    rw [Bool.eq_iff_iff, List.drop_zero, List.any_map, List.any_eq_true, decide_eq_true_iff]
    have helem : ∀ q : DiscoveredPeer × Block,
        ((fun x => decide (leWord (x.take 4) = r.1.ip)) ∘ fun q : DiscoveredPeer × Block =>
          leBytes64 q.2.addr) q = true ↔ q.2.addr.toUInt32 = r.1.ip := by
      intro q
      rw [Function.comp_apply, decide_eq_true_iff, leWord_take_leBytes64]
    simp only [helem, Mistaken]
  rw [hany] at hscan
  by_cases hm : Mistaken qs r.1.ip
  · rw [noted, if_pos hm]
    refine ⟨{ c with peers := listIterStopSafe list₁ }, ?_, ⟨ps, hstop⟩, hsize, hh.lookup⟩
    rw [clientFindPeer, hscan, Option.bind_eq_bind, Option.bind_some]
    exact if_pos (decide_eq_true hm)
  · rw [noted, if_neg hm]
    have hd : (listIterStopSafe list₁).elemSize ≤ (leBytes64 r.2.addr).length := by
      rw [hsize, length_leBytes64]
    obtain ⟨list₂, happend, ⟨ps₂, hl₂⟩, he₂⟩ := listAppend_spec hstop hd
    have hlen : (listIterStopSafe list₁).len = wrap32 qs.length := by
      rw [hstop.len, List.length_map]
    rw [hsize, List.take_of_length_le (le_of_eq (length_leBytes64 _)), appended, hlen] at hl₂
    refine ⟨{ c with
      peers := list₂
      blocks := c.blocks ++ [(r.2.addr, peerOf r)] }, ?_, ⟨ps₂, ?_⟩, he₂.elemSize.trans hsize, ?_⟩
    · rw [clientFindPeer, hscan, Option.bind_eq_bind, Option.bind_some]
      show (if decide (Mistaken qs r.1.ip) = true then _ else _) = _
      rw [if_neg (by simpa using hm), happend]
      rfl
    · split_ifs at hl₂ ⊢ with hz
      · exact hl₂
      · rw [List.map_append]
        exact hl₂
    · have hnew : (c.blocks ++ [(r.2.addr, peerOf r)]).lookup r.2.addr = some (peerOf r) := by
        rw [List.lookup_append, hfresh]
        simp
      have hold : ∀ q ∈ qs, (c.blocks ++ [(r.2.addr, peerOf r)]).lookup q.2.addr =
          some (peerOf q) := by
        intro q hq
        rw [List.lookup_append, hh.lookup q hq]
        rfl
      intro q hq
      split_ifs at hq
      · obtain rfl := List.mem_singleton.mp hq
        exact hnew
      · rcases List.mem_append.mp hq with hq | hq
        · exact hold q hq
        · obtain rfl := List.mem_singleton.mp hq
          exact hnew

/-! ## Whole runs -/

/-- `malloc` never returns the address of a peer that is still there, and no peer is ever freed. -/
def Fresh (c : ClientT) (reports : List (DiscoveredPeer × Block)) : Prop :=
  ∀ pre r post c', reports = pre ++ r :: post → findAll c pre = some c' →
    c'.blocks.lookup r.2.addr = none

/-- A report allocates one peer, or none. -/
theorem blocks_clientFindPeer (h : clientFindPeer c r = some c') :
    c'.blocks = c.blocks ∨ c'.blocks = c.blocks ++ [(r.2.addr, peerOf r)] := by
  rw [clientFindPeer, Option.bind_eq_bind, Option.bind_eq_some_iff] at h
  obtain ⟨⟨found, list⟩, _, h⟩ := h
  dsimp only at h
  split_ifs at h
  · exact Or.inl (Option.some.inj h ▸ rfl)
  · rw [Option.bind_eq_bind, Option.bind_eq_some_iff] at h
    obtain ⟨list', _, h⟩ := h
    exact Or.inr (Option.some.inj h ▸ rfl)

/-- The peers allocated have addresses that were handed out. -/
theorem lookup_eq_none_of_notMem {addr : UInt64} (hrun : findAll clientInit reports = some c)
    (h : addr ∉ reports.map fun r => r.2.addr) : c.blocks.lookup addr = none := by
  induction reports using List.reverseRecOn generalizing c with
  | nil =>
      obtain rfl := Option.some.inj hrun
      rfl
  | append_singleton reports r ih =>
      obtain ⟨c₁, hrun, hstep⟩ := foldlM_concat_eq_some_iff.mp hrun
      rw [List.map_append, List.mem_append, not_or] at h
      have hold := ih hrun h.1
      rcases blocks_clientFindPeer hstep with hsame | hmore
      · rw [hsame, hold]
      · have hne : addr ≠ r.2.addr := fun haddr => h.2 (List.mem_singleton.mpr haddr)
        rw [hmore, List.lookup_append, hold]
        simp [hne]

/-- Addresses that are handed out once are fresh. -/
theorem fresh_of_nodup (h : (reports.map fun r => r.2.addr).Nodup) : Fresh clientInit reports := by
  intro pre r post c hpre hrun
  apply lookup_eq_none_of_notMem hrun
  rw [hpre, List.map_append, List.map_cons] at h
  exact fun hmem => (List.disjoint_of_nodup_append h) hmem List.mem_cons_self

/-- **Reports in order** complete, and the peers are those noted. -/
theorem findAll_spec (hf : Fresh clientInit reports) :
    ∃ c, findAll clientInit reports = some c ∧ Holds c (reports.foldl noted []) := by
  induction reports using List.reverseRecOn with
  | nil => exact ⟨clientInit, rfl, holds_init⟩
  | append_singleton reports r ih =>
      obtain ⟨c, hrun, hh⟩ := ih fun pre q post c' hpre =>
        hf pre q (post ++ [r]) c' (by rw [hpre]; simp)
      obtain ⟨c', hstep, hh'⟩ := clientFindPeer_spec hh (hf reports r [] c rfl hrun)
      refine ⟨c', foldlM_concat_eq_some_iff.mpr ⟨c, hrun, hstep⟩, ?_⟩
      rw [List.foldl_append]
      exact hh'

/-- **One entry for each address reported**, with the port of its first report and the status
`new`, and none for an address that was not reported. -/
def Deduplicated (es : List PeerT) (reports : List DiscoveredPeer) : Prop :=
  ∀ ip, (es.filter (·.ipAddress = ip)).map (fun e => (e.port, e.status)) =
    ((reports.find? (·.ip = ip)).map fun r => (r.port, PeerStatus.new)).toList

/-- The report has an address that was reported before. -/
def Known (reports : List (DiscoveredPeer × Block)) (ip : UInt32) : Prop :=
  ∃ q ∈ reports, q.1.ip = ip

instance (reports : List (DiscoveredPeer × Block)) (ip : UInt32) : Decidable (Known reports ip) :=
  inferInstanceAs (Decidable (∃ q ∈ reports, _))

/-- The first report of each address. -/
def firsts (reports : List (DiscoveredPeer × Block)) : List (DiscoveredPeer × Block) :=
  reports.foldl (fun qs r => if Known qs r.1.ip then qs else qs ++ [r]) []

/-- The pointers tell whether an address was reported before: the low half of the pointer to an
earlier peer is the address reported exactly if it was; and a new peer happens to have the status
`new`. -/
def Distinguishes (reports : List (DiscoveredPeer × Block)) : Prop :=
  ∀ pre r post, reports = pre ++ r :: post →
    (Mistaken (firsts pre) r.1.ip ↔ Known pre r.1.ip) ∧ (¬ Known pre r.1.ip → r.2.status = .new)

/-! ### First reports -/

/-- One more report. -/
theorem firsts_concat (reports : List (DiscoveredPeer × Block)) (r : DiscoveredPeer × Block) :
    firsts (reports ++ [r]) =
      if Known (firsts reports) r.1.ip then firsts reports else firsts reports ++ [r] := by
  rw [firsts, List.foldl_append]
  rfl

/-- One more report makes its address known. -/
theorem known_concat (reports : List (DiscoveredPeer × Block)) (r : DiscoveredPeer × Block)
    (ip : UInt32) : Known (reports ++ [r]) ip ↔ Known reports ip ∨ r.1.ip = ip := by
  simp [Known, or_and_right, exists_or]

/-- An address was reported exactly if it has a first report. -/
theorem known_firsts (reports : List (DiscoveredPeer × Block)) (ip : UInt32) :
    Known (firsts reports) ip ↔ Known reports ip := by
  induction reports using List.reverseRecOn with
  | nil => exact Iff.rfl
  | append_singleton reports r ih =>
      rw [firsts_concat, known_concat, ← ih]
      split_ifs with hknown
      · constructor
        · exact Or.inl
        · rintro (h | rfl)
          · exact h
          · exact hknown
      · exact known_concat _ _ _

/-- An address that was reported is found. -/
theorem exists_find?_of_known {ip : UInt32} (h : Known reports ip) :
    ∃ q, reports.find? (fun q => q.1.ip = ip) = some q := by
  obtain ⟨q, hq, hqip⟩ := h
  exact Option.isSome_iff_exists.mp (List.find?_isSome.mpr ⟨q, hq, by simpa using hqip⟩)

/-- An address that was not reported is not found. -/
theorem find?_eq_none_of_not_known {ip : UInt32} (h : ¬ Known reports ip) :
    reports.find? (fun q => q.1.ip = ip) = none := by
  rw [List.find?_eq_none]
  intro q hq hqip
  exact h ⟨q, hq, by simpa using hqip⟩

/-- The first report of an address. -/
theorem filter_firsts (reports : List (DiscoveredPeer × Block)) (ip : UInt32) :
    (firsts reports).filter (·.1.ip = ip) = (reports.find? (·.1.ip = ip)).toList := by
  induction reports using List.reverseRecOn with
  | nil => rfl
  | append_singleton reports r ih =>
      rw [firsts_concat, List.find?_append]
      by_cases hknown : Known (firsts reports) r.1.ip
      · rw [if_pos hknown, ih]
        by_cases hip : r.1.ip = ip
        · subst hip
          obtain ⟨q, hq⟩ := exists_find?_of_known ((known_firsts reports r.1.ip).mp hknown)
          rw [hq]
          rfl
        · simp [hip]
      · rw [if_neg hknown, List.filter_append, ih]
        by_cases hip : r.1.ip = ip
        · subst hip
          rw [find?_eq_none_of_not_known fun h => hknown ((known_firsts reports r.1.ip).mpr h)]
          simp
        · simp [hip]

/-- Each address has one first report. -/
theorem nodup_firsts (reports : List (DiscoveredPeer × Block)) :
    ((firsts reports).map fun q => q.1.ip).Nodup := by
  induction reports using List.reverseRecOn with
  | nil => exact List.nodup_nil
  | append_singleton reports r ih =>
      rw [firsts_concat]
      split_ifs with hknown
      · exact ih
      · rw [List.map_append, List.map_singleton, List.nodup_append]
        refine ⟨ih, List.nodup_singleton _, ?_⟩
        rintro a ha b hb rfl
        obtain ⟨q, hq, hqip⟩ := List.mem_map.mp ha
        exact hknown ⟨q, hq, hqip.trans (List.mem_singleton.mp hb)⟩

/-- There are `2 ^ 32` addresses. -/
theorem length_le_of_nodup {ips : List UInt32} (h : ips.Nodup) : ips.length ≤ 2 ^ 32 := by
  have hnodup : (ips.map UInt32.toNat).Nodup := h.map fun a b hab => UInt32.toNat_inj.mp hab
  have hsub : ips.map UInt32.toNat ⊆ List.range (2 ^ 32) := by
    intro n hn
    obtain ⟨a, _, rfl⟩ := List.mem_map.mp hn
    exact List.mem_range.mpr a.toNat_lt
  have hle := (hnodup.subperm hsub).length_le
  rwa [List.length_map, List.length_range] at hle

/-- An address that was not reported is left while there are fewer first reports. -/
theorem length_firsts_lt {ip : UInt32} (h : ¬ Known reports ip) :
    (firsts reports).length < 2 ^ 32 := by
  have hnodup : (ip :: (firsts reports).map fun q => q.1.ip).Nodup := by
    refine List.nodup_cons.mpr ⟨fun hmem => ?_, nodup_firsts reports⟩
    obtain ⟨q, hq, hqip⟩ := List.mem_map.mp hmem
    exact h ((known_firsts reports ip).mp ⟨q, hq, hqip⟩)
  have hle := length_le_of_nodup hnodup
  rw [List.length_cons, List.length_map] at hle
  exact hle

/-! ### Deduplication -/

/-- The reports of the trackers, without what `malloc` returned. -/
abbrev reported (reports : List (DiscoveredPeer × Block)) : List DiscoveredPeer :=
  reports.map Prod.fst

/-- The entries of an address. -/
theorem filter_peerOf (qs : List (DiscoveredPeer × Block)) (ip : UInt32) :
    ((qs.map peerOf).filter (·.ipAddress = ip)).map (fun e => (e.port, e.status)) =
      (qs.filter (·.1.ip = ip)).map fun q => (q.1.port, q.2.status) := by
  rw [List.filter_map, List.map_map]
  rfl

/-- The first report of an address, whatever `malloc` returned. -/
theorem find?_reported (reports : List (DiscoveredPeer × Block)) (ip : UInt32) :
    (reported reports).find? (·.ip = ip) = (reports.find? (·.1.ip = ip)).map Prod.fst := by
  rw [List.find?_map]
  rfl

/-- The peers made for the first reports are deduplicated if their status is `new`. -/
theorem deduplicated_firsts (h : ∀ q ∈ firsts reports, q.2.status = .new) :
    Deduplicated ((firsts reports).map peerOf) (reported reports) := by
  intro ip
  rw [filter_peerOf, filter_firsts, find?_reported]
  cases hq : reports.find? (·.1.ip = ip) with
  | none => rfl
  | some q =>
      have hmem : q ∈ (firsts reports).filter (·.1.ip = ip) := by
        rw [filter_firsts, hq]
        exact List.mem_singleton_self q
      have hnew := h q (List.mem_filter.mp hmem).1
      simp [hnew]

/-- An address that was reported has one entry. -/
theorem length_filter_of_deduplicated {ip : UInt32}
    (h : Deduplicated (qs.map peerOf) (reported reports)) (hk : Known reports ip) :
    (qs.filter (·.1.ip = ip)).length = 1 := by
  obtain ⟨q, hq⟩ := exists_find?_of_known hk
  have hip := congrArg List.length (h ip)
  rw [filter_peerOf, find?_reported, hq, List.length_map] at hip
  exact hip

/-- One more report is distinguished, or not. -/
theorem distinguishes_concat :
    Distinguishes (reports ++ [r]) ↔ Distinguishes reports ∧
      (Mistaken (firsts reports) r.1.ip ↔ Known reports r.1.ip) ∧
        (¬ Known reports r.1.ip → r.2.status = .new) := by
  constructor
  · intro h
    refine ⟨fun pre q post hpre => ?_, h reports r [] rfl⟩
    exact h pre q (post ++ [r]) (by rw [hpre]; simp)
  · rintro ⟨h, hr⟩ pre q post hpre
    rcases List.eq_nil_or_concat post with rfl | ⟨post, x, rfl⟩
    · obtain ⟨rfl, hq⟩ := List.append_inj' hpre rfl
      obtain rfl := List.singleton_inj.mp hq
      exact hr
    · rw [List.concat_eq_append, ← List.cons_append, ← List.append_assoc] at hpre
      exact h pre q post (List.append_inj' hpre rfl).1

/-- A counter at zero, with an address left, counts nothing. -/
theorem firsts_eq_nil {ip : UInt32} (h : ¬ Known reports ip)
    (hz : wrap32 (firsts reports).length = 0) : firsts reports = [] := by
  have hlt := length_firsts_lt h
  rw [wrap32_eq_zero_iff] at hz
  exact List.length_eq_zero_iff.mp (by omega)

/-- A report of a new address that is not mistaken is noted. -/
theorem noted_firsts (hm : ¬ Mistaken (firsts reports) r.1.ip) (hk : ¬ Known reports r.1.ip) :
    noted (firsts reports) r = firsts reports ++ [r] := by
  rw [noted, if_neg hm]
  split_ifs with hz
  · rw [firsts_eq_nil hk hz]
    rfl
  · rfl

/-- While the pointers distinguish, the peers noted are those of the first reports, and new. -/
theorem foldl_noted_eq (h : Distinguishes reports) :
    reports.foldl noted [] = firsts reports ∧ ∀ q ∈ firsts reports, q.2.status = .new := by
  induction reports using List.reverseRecOn with
  | nil =>
      rw [firsts, List.foldl_nil, List.foldl_nil]
      exact ⟨rfl, fun q hq => absurd hq List.not_mem_nil⟩
  | append_singleton reports r ih =>
      obtain ⟨hdist, hiff, hnew⟩ := distinguishes_concat.mp h
      obtain ⟨heq, hstatus⟩ := ih hdist
      rw [List.foldl_append, heq, List.foldl_cons, List.foldl_nil, firsts_concat]
      by_cases hk : Known reports r.1.ip
      · rw [noted, if_pos (hiff.mpr hk), if_pos ((known_firsts _ _).mpr hk)]
        exact ⟨rfl, hstatus⟩
      · rw [if_neg fun hkf => hk ((known_firsts _ _).mp hkf)]
        refine ⟨noted_firsts (fun hm => hk (hiff.mp hm)) hk, fun q hq => ?_⟩
        rcases List.mem_append.mp hq with hq | hq
        · exact hstatus q hq
        · rw [List.mem_singleton.mp hq]
          exact hnew hk

/-- Many different addresses are not all the same one. -/
theorem exists_ip_ne (hfull : 1 < (firsts reports).length) (ip : UInt32) :
    ∃ q ∈ firsts reports, q.1.ip ≠ ip := by
  by_contra hall
  have hsame : ∀ a ∈ (firsts reports).map fun q => q.1.ip, a = ip := by
    intro a ha
    obtain ⟨q, hq, rfl⟩ := List.mem_map.mp ha
    by_contra hne
    exact hall ⟨q, hq, hne⟩
  have hsub : ((firsts reports).map fun q => q.1.ip) ⊆ [ip] :=
    fun a ha => List.mem_singleton.mpr (hsame a ha)
  have hle := ((nodup_firsts reports).subperm hsub).length_le
  rw [List.length_map, List.length_singleton] at hle
  omega

/-- **The report that goes wrong.** After it the peers are not deduplicated. -/
theorem distinguishes_of_deduplicated (hdist : Distinguishes reports)
    (hd : Deduplicated ((noted (firsts reports) r).map peerOf) (reported (reports ++ [r]))) :
    Distinguishes (reports ++ [r]) := by
  have hone : ∀ ip, Known (reports ++ [r]) ip →
      ((noted (firsts reports) r).filter (·.1.ip = ip)).length = 1 := fun ip =>
    length_filter_of_deduplicated hd
  have hr : Known (reports ++ [r]) r.1.ip := (known_concat _ _ _).mpr (Or.inr rfl)
  have hdrop : Mistaken (firsts reports) r.1.ip → Known reports r.1.ip := by
    -- the report was dropped, so there is an entry from before
    intro hm
    have hlen := hone r.1.ip hr
    rw [noted, if_pos hm] at hlen
    obtain ⟨q, hq⟩ := List.exists_mem_of_length_eq_add_one hlen
    obtain ⟨hmem, hqip⟩ := List.mem_filter.mp hq
    exact (known_firsts _ _).mp ⟨q, hmem, of_decide_eq_true hqip⟩
  refine distinguishes_concat.mpr ⟨hdist, ⟨hdrop, fun hk => ?_⟩, fun hk => ?_⟩
  · -- the report was not dropped: there are two entries, or the list was started anew
    by_contra hm
    obtain ⟨q, hq, hqip⟩ := (known_firsts _ _).mpr hk
    rw [noted, if_neg hm] at hone
    split_ifs at hone with hz
    · have hpos : 0 < (firsts reports).length := List.length_pos_of_mem hq
      rw [wrap32_eq_zero_iff] at hz
      obtain ⟨q', hq', hne⟩ := exists_ip_ne (show 1 < (firsts reports).length by omega) r.1.ip
      have hknown : Known reports q'.1.ip := (known_firsts _ _).mp ⟨q', hq', rfl⟩
      have hlen := hone q'.1.ip ((known_concat _ _ _).mpr (Or.inl hknown))
      simp [Ne.symm hne] at hlen
    · have hlen := hone r.1.ip hr
      have hpos : 0 < ((firsts reports).filter (·.1.ip = r.1.ip)).length :=
        List.length_pos_of_mem (List.mem_filter.mpr ⟨hq, decide_eq_true hqip⟩)
      have hlast : [r].filter (fun q => q.1.ip = r.1.ip) = [r] :=
        List.filter_cons_of_pos (decide_eq_true rfl)
      rw [List.filter_append, hlast, List.length_append, List.length_singleton] at hlen
      omega
  · -- the report was not dropped: its entry has the status that was there
    have hip := hd r.1.ip
    rw [noted_firsts (fun hm => hk (hdrop hm)) hk, filter_peerOf, List.filter_append,
      filter_firsts, find?_reported, List.find?_append, find?_eq_none_of_not_known hk] at hip
    simp at hip
    exact hip

/-- The peers noted are deduplicated after every report exactly if the pointers distinguish. -/
theorem noted_deduplicated_iff (reports : List (DiscoveredPeer × Block)) :
    (∀ pre post, reports = pre ++ post →
        Deduplicated ((pre.foldl noted []).map peerOf) (reported pre)) ↔
      Distinguishes reports := by
  constructor
  · intro h
    induction reports using List.reverseRecOn with
    | nil =>
        intro pre r post hpre
        exact absurd hpre (by simp)
    | append_singleton reports r ih =>
        have hdist := ih fun pre post hpre => h pre (post ++ [r]) (by rw [hpre]; simp)
        have hlast := h (reports ++ [r]) [] (by simp)
        rw [List.foldl_append, (foldl_noted_eq hdist).1] at hlast
        exact distinguishes_of_deduplicated hdist hlast
  · intro h pre post hpre
    have hdist : Distinguishes pre := by
      intro pre' r post' hpre'
      exact h pre' r (post' ++ post) (by rw [hpre, hpre']; simp)
    obtain ⟨heq, hnew⟩ := foldl_noted_eq hdist
    rw [heq]
    exact deduplicated_firsts hnew

/-- **Discovered peers are deduplicated** after every report exactly if the pointers distinguish
the reports; and every run completes. -/
theorem deduplicated_iff (reports : List (DiscoveredPeer × Block))
    (hf : Fresh clientInit reports) :
    (∃ c, findAll clientInit reports = some c) ∧
      ((∀ pre post c, reports = pre ++ post → findAll clientInit pre = some c →
          ∃ es, entries c = some es ∧ Deduplicated es (reported pre)) ↔
        Distinguishes reports) := by
  obtain ⟨c, hrun, _⟩ := findAll_spec hf
  refine ⟨⟨c, hrun⟩, ?_⟩
  have hpre : ∀ pre post, reports = pre ++ post → ∃ c, findAll clientInit pre = some c ∧
      entries c = some ((pre.foldl noted []).map peerOf) := by
    intro pre post hpre
    have hfresh : Fresh clientInit pre := fun pre' r post' c' hpre' =>
      hf pre' r (post' ++ post) c' (by rw [hpre, hpre']; simp)
    obtain ⟨c, hrun, hh⟩ := findAll_spec hfresh
    exact ⟨c, hrun, hh.entries_eq⟩
  rw [← noted_deduplicated_iff]
  constructor
  · intro h pre post hsplit
    obtain ⟨c, hrun, hentries⟩ := hpre pre post hsplit
    obtain ⟨es, hes, hd⟩ := h pre post c hsplit hrun
    rw [hentries] at hes
    obtain rfl := Option.some.inj hes
    exact hd
  · intro h pre post c hsplit hrun
    obtain ⟨c', hrun', hentries⟩ := hpre pre post hsplit
    rw [hrun] at hrun'
    obtain rfl := Option.some.inj hrun'
    exact ⟨_, hentries, h pre post hsplit⟩

/-- Two peers, whose pointers do not look like their addresses. -/
theorem deduplicated_iff_example :
    (∃ c, findAll clientInit [(⟨1, 6881⟩, ⟨0x1000, .new⟩), (⟨2, 6882⟩, ⟨0x2000, .new⟩)] =
      some c) ∧
      ((∀ pre post c,
          [(⟨1, 6881⟩, ⟨0x1000, .new⟩), (⟨2, 6882⟩, ⟨0x2000, .new⟩)] = pre ++ post →
          findAll clientInit pre = some c →
          ∃ es, entries c = some es ∧ Deduplicated es (reported pre)) ↔
        Distinguishes [(⟨1, 6881⟩, ⟨0x1000, .new⟩), (⟨2, 6882⟩, ⟨0x2000, .new⟩)]) := by
  apply deduplicated_iff
  exact fresh_of_nodup (by decide)

/-- A peer reported twice is listed twice. -/
theorem reported_twice_listed_twice :
    ((findAll clientInit [(⟨1, 6881⟩, ⟨0x1000, .new⟩), (⟨1, 6881⟩, ⟨0x2000, .new⟩)]).bind
        entries) = some [newPeer 1 6881 .new, newPeer 1 6881 .new] ∧
      ¬ Deduplicated [newPeer 1 6881 .new, newPeer 1 6881 .new] [⟨1, 6881⟩, ⟨1, 6881⟩] := by
  refine ⟨by decide +kernel, fun h => ?_⟩
  exact absurd (congrArg List.length (h 1)) (by decide)

end Flood.Client
