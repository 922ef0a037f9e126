import Flood.Lib.DoubleChain
import Flood.Torrent.Trackers

/-!
# The trackers of a client

`client_init`, `client_init_trackers` and `client_start_trackers`, on the heap of trackers.

* `Follows m bencode dict t config c heap` — after `prepare_trackers`, `client_init` and
  `client_init_trackers`, following `c->trackers` and `next` gives `tracker_count` trackers, with the
  URLs of the metainfo file in order, and then `NULL`.
* `initTrackersLoop_spec` — each turn of the loop puts one tracker behind the others.
* `follows_iff` — it does so exactly if an `int` counts the trackers and, where there is no tracker at
  all, `c->trackers` was `NULL` before: nothing else sets it. `not_follows` is a client that was not
  zeroed.
-/

namespace Flood.Client.Heap

open Flood.Lib Flood.LinkedList Flood.Bencode Flood.Torrent Flood.Torrent.Heap

/-! ## The functions -/

/-- The configuration of a client.
Source: `client.h`, `client_config_t` -/
structure ClientConfig where
  /-- How often a tracker is asked, in seconds. -/
  trackerPollFrequency : Int
  /-- The number of threads for peers. -/
  peerThreads : Int
  /-- How long a peer may take, in seconds. -/
  peerTimeout : Int
  /-- How the client calls itself. -/
  peerId : List UInt8
  deriving DecidableEq

/-- The configuration that `main` gives the client.
Source: `main.c`, `default_config` -/
def defaultConfig : ClientConfig where
  trackerPollFrequency := 30
  peerThreads := 20
  peerTimeout := 3
  peerId := [67, 85, 83, 84, 79, 77, 67, 76, 73, 69, 78, 84, 49, 50, 51, 52, 53, 54, 55, 56]

/-- A tracker; the members that `client_init_trackers` sets to the same pointers for each are left
out.
Source: `tracker.h`, `tracker_t` -/
structure TrackerT where
  /-- The URL. -/
  url : Option CharPtr
  /-- How often it is asked, in seconds. -/
  pollFreq : Int
  /-- The next tracker. -/
  next : Option Nat
  deriving DecidableEq

/-- A client.
Source: `client.h`, `client_t` -/
structure ClientT where
  /-- The list of peers. -/
  peers : ListT
  /-- The torrent. -/
  torrent : Heap.TorrentT
  /-- The configuration. -/
  config : ClientConfig
  /-- The first tracker. -/
  trackers : Option Nat

/-- Set up a client. The member `trackers` is not written.
Source: `client.c`, `client_init` -/
def clientInit (c : ClientT) (config : ClientConfig) (t : Heap.TorrentT) : ClientT :=
  { c with torrent := t, config := config, peers := listNew 8 }

/-- `calloc` of a tracker behind the others, with the URL and the frequency set; its address is the
number of trackers before it. -/
def newTracker (c : ClientT) (heap : List TrackerT) (trackerUrl : Option CharPtr) : List TrackerT :=
  heap ++ [⟨trackerUrl, c.config.trackerPollFrequency, none⟩]

/-- `prev->next = tracker` -/
def setNext (heap : List TrackerT) (prev tracker : Nat) : Option (List TrackerT) := do
  let node ← heap[prev]?
  some (heap.set prev { node with next := some tracker })

/-- The body of the loop of `client_init_trackers`. -/
def initTracker (trackerUrl : Option CharPtr) (prev : Option Nat) (c : ClientT)
    (heap : List TrackerT) : Option (ClientT × List TrackerT) :=
  match prev with
  | none => some ({ c with trackers := some heap.length }, newTracker c heap trackerUrl)
  | some prev => (setNext (newTracker c heap trackerUrl) prev heap.length).map fun heap => (c, heap)

/-- The loop of `client_init_trackers`, with the number of turns left. -/
def initTrackersLoop : Nat → Int → Option Nat → ClientT → List TrackerT →
    Option (ClientT × List TrackerT)
  | 0, _, _, c, heap => some (c, heap)
  | turns + 1, i, prev, c, heap => do
      let trackerUrl ← (slot c.torrent.trackerUrls i).join
      let (c', heap') ← initTracker trackerUrl prev c heap
      initTrackersLoop turns (wrap32 (i + 1)) (some heap.length) c' heap'

/-- Make the trackers of the torrent.
Source: `client.c`, `client_init_trackers` -/
def clientInitTrackers (c : ClientT) (heap : List TrackerT) : Option (ClientT × List TrackerT) :=
  initTrackersLoop c.torrent.trackerCount.toNat 0 none c heap

/-- The loop of `client_start_trackers`: the trackers started. -/
def startTrackersLoop (heap : List TrackerT) : Nat → Option Nat → Option (List TrackerT)
  | _, none => some []
  | 0, some _ => none
  | fuel + 1, some a => do
      let tracker ← heap[a]?
      let rest ← startTrackersLoop heap fuel tracker.next
      some (tracker :: rest)

/-- Start the trackers, from `c->trackers` along `next` to `NULL`.
Source: `client.c`, `client_start_trackers` -/
def clientStartTrackers (c : ClientT) (heap : List TrackerT) : Option (List TrackerT) :=
  startTrackersLoop heap heap.length c.trackers

variable {m : Memory} {bencode : UInt64} {v : BencodeValue} {dict : BencodeDict}
  {t : Heap.TorrentT} {c c' : ClientT} {heap heap' : List TrackerT} {ps : List Nat}
  {urls : List (Option CharPtr)} {prev : Option Nat} {url : Option CharPtr}

/-! ## The chain of trackers -/

/-- `prev->next = tracker` writes that member only. -/
theorem setNext_spec {a : Nat} {n : TrackerT} (hn : heap[a]? = some n) (b : Nat) :
    ∃ heap', setNext heap a b = some heap' ∧ heap'[a]? = some { n with next := some b } ∧
      ∀ x, x ≠ a → heap'[x]? = heap[x]? := by
  refine ⟨heap.set a { n with next := some b }, ?_, ?_, fun x hx => ?_⟩
  · rw [setNext, hn]
    rfl
  · exact List.getElem?_set_self (List.getElem?_eq_some_iff.mp hn).1
  · exact List.getElem?_set_ne hx.symm

/-- The trackers `ps` have the URLs `urls`, and the last of them is `prev`. If there is one, they are
the trackers of the client. -/
structure Made (c : ClientT) (heap : List TrackerT) (ps : List Nat) (urls : List (Option CharPtr))
    (prev : Option Nat) : Prop where
  /-- The trackers are linked. -/
  chain : ps ≠ [] → Chain TrackerT.next heap c.trackers ps
  /-- They have the URLs. -/
  urls : ps.map (fun a => (heap[a]?).map TrackerT.url) = urls.map some
  /-- The last one. -/
  prev : prev = ps.getLast?

namespace Made

/-- There is none to begin with. -/
theorem nil (c : ClientT) (heap : List TrackerT) : Made c heap [] [] none :=
  ⟨fun h => absurd rfl h, rfl, rfl⟩

/-- The trackers are in the heap. -/
theorem isSome_of_mem (hm : Made c heap ps urls prev) {a : Nat} (ha : a ∈ ps) :
    ∃ n, heap[a]? = some n := by
  have hmem : (heap[a]?).map TrackerT.url ∈ urls.map some := by
    rw [← hm.urls]
    exact List.mem_map_of_mem ha
  obtain ⟨u, -, hu⟩ := List.mem_map.mp hmem
  obtain ⟨n, hn, -⟩ := Option.map_eq_some_iff.mp hu.symm
  exact ⟨n, hn⟩

/-- The trackers have the URLs, and the new one has the new URL. -/
theorem urls_concat (hm : Made c heap ps urls prev)
    (hold : ∀ a < heap.length, (heap'[a]?).map TrackerT.url = (heap[a]?).map TrackerT.url)
    (hnew : (heap'[heap.length]?).map TrackerT.url = some url) :
    (ps ++ [heap.length]).map (fun a => (heap'[a]?).map TrackerT.url) = (urls ++ [url]).map some := by
  rw [List.map_append, List.map_append, ← hm.urls, List.map_singleton, List.map_singleton, hnew]
  congr 1
  refine List.map_congr_left fun a ha => ?_
  obtain ⟨n, hn⟩ := hm.isSome_of_mem ha
  exact hold a (List.getElem?_eq_some_iff.mp hn).1

/-- **A turn of the loop** puts one tracker behind the others. -/
theorem step (hm : Made c heap ps urls prev) (url : Option CharPtr) :
    ∃ c' heap', initTracker url prev c heap = some (c', heap') ∧ c'.torrent = c.torrent ∧
      Made c' heap' (ps ++ [heap.length]) (urls ++ [url]) (some heap.length) := by
  have hnew : (newTracker c heap url)[heap.length]? =
      some ⟨url, c.config.trackerPollFrequency, none⟩ := List.getElem?_concat_length
  have hold : ∀ a < heap.length, (newTracker c heap url)[a]? = heap[a]? :=
    fun a ha => List.getElem?_append_left ha
  have hlast : (ps ++ [heap.length]).getLast? = some heap.length := List.getLast?_concat
  rcases List.eq_nil_or_concat' ps with rfl | ⟨l, a, rfl⟩
  · obtain rfl : prev = none := hm.prev
    refine ⟨_, _, rfl, rfl, fun _ => .cons hnew (.nil none), ?_, hlast.symm⟩
    exact hm.urls_concat (fun a ha => by rw [hold a ha]) (by rw [hnew]; rfl)
  · obtain rfl : prev = some a := hm.prev.trans List.getLast?_concat
    obtain ⟨n, hn⟩ := hm.isSome_of_mem (List.mem_append_right l List.mem_cons_self)
    have hlt : a < heap.length := (List.getElem?_eq_some_iff.mp hn).1
    obtain ⟨heap', hset, hself, hother⟩ := setNext_spec ((hold a hlt).trans hn) heap.length
    have hnew' := (hother heap.length hlt.ne').trans hnew
    refine ⟨c, heap', by rw [initTracker, hset]; rfl, rfl, fun _ => ?_, ?_, hlast.symm⟩
    · have hne : l ++ [a] ≠ [] := List.append_ne_nil_of_right_ne_nil l (List.cons_ne_nil a [])
      have hchain : Chain TrackerT.next heap c.trackers (l ++ [a] ++ []) := by
        rw [List.append_nil]
        exact hm.chain hne
      have hinsert := @Chain.insert _ _ _ heap' _ _ _ heap.length hchain ?_ ⟨_, hnew', rfl⟩
      · rwa [if_neg hne] at hinsert
      · intro b hb
        by_cases hba : b = a
        · rw [hba, if_pos List.getLast?_concat, hself]
          rfl
        · have hnot : (l ++ [a]).getLast? ≠ some b := by
            rw [List.getLast?_concat]
            exact fun h => hba (Option.some.inj h).symm
          rw [if_neg hnot, hother b hba, hold b (hchain.lt_of_mem hb)]
    · refine hm.urls_concat (fun b hb => ?_) (by rw [hnew']; rfl)
      by_cases hba : b = a
      · rw [hba, hself, hn]
        rfl
      · rw [hother b hba, hold b hb]

end Made

/-- **The loop** makes a tracker for each URL that is left. -/
theorem initTrackersLoop_spec {more : List (Option CharPtr)} {rest : List UrlSlot}
    (hm : Made c heap ps urls prev)
    (hurls : c.torrent.trackerUrls = urls.map some ++ (more.map some ++ rest))
    (hmax : ((urls.length + more.length : Nat) : Int) ≤ intMax) :
    ∃ c' heap' ps' prev', initTrackersLoop more.length urls.length prev c heap = some (c', heap') ∧
      Made c' heap' ps' (urls ++ more) prev' ∧ (more = [] → c' = c) := by
  induction more generalizing c heap ps urls prev with
  | nil => exact ⟨c, heap, ps, prev, rfl, by rwa [List.append_nil], fun _ => rfl⟩
  | cons url more ih =>
      have hread : (slot c.torrent.trackerUrls (urls.length : Int)).join = some url := by
        rw [hurls, ← List.length_map some, List.map_cons, List.cons_append, slot_seam]
        rfl
      have hnext : wrap32 ((urls.length : Int) + 1) = ((urls ++ [url]).length : Nat) := by
        rw [List.length_append, List.length_singleton, ← Nat.cast_succ]
        refine wrap32_natCast (le_trans (Nat.cast_le.mpr ?_) hmax)
        rw [List.length_cons]
        omega
      obtain ⟨c₁, heap₁, hrun, htorrent, hm'⟩ := hm.step url
      obtain ⟨c', heap', ps', prev', hloop, hmade, -⟩ := ih hm'
        (by rw [htorrent, hurls, List.map_append, List.append_assoc]; rfl)
        (by rwa [List.length_append, List.length_singleton, add_assoc, add_comm 1])
      refine ⟨c', heap', ps', prev', ?_, by rwa [List.append_assoc] at hmade, fun h => by cases h⟩
      rw [List.length_cons, initTrackersLoop, hread, Option.bind_eq_bind, Option.bind_some, hrun,
        Option.bind_eq_bind, Option.bind_some]
      dsimp only
      rw [hnext, hloop]

/-- Following a chain to its end delivers its trackers. -/
theorem startTrackersLoop_spec {p : Option Nat} {fuel : Nat} (hchain : Chain TrackerT.next heap p ps)
    (hfuel : ps.length ≤ fuel) :
    ∃ started, startTrackersLoop heap fuel p = some started ∧
      started.map some = ps.map fun a => heap[a]? := by
  induction ps generalizing p fuel with
  | nil =>
      obtain rfl := Seg.nil_iff.mp hchain
      exact ⟨[], startTrackersLoop.eq_1 heap fuel, rfl⟩
  | cons a ps ih =>
      obtain ⟨rfl, n, hn, hs⟩ := Seg.cons_iff.mp hchain
      cases fuel with
      | zero => cases hfuel
      | succ fuel =>
          obtain ⟨started, hrun, hmap⟩ := ih hs (Nat.le_of_succ_le_succ hfuel)
          refine ⟨n :: started, ?_, by rw [List.map_cons, List.map_cons, hmap, hn]⟩
          rw [startTrackersLoop, hn, Option.bind_eq_bind, Option.bind_some, hrun]
          rfl

/-- A chain that is not null has a tracker. -/
theorem ne_nil_of_startTrackersLoop {fuel a : Nat} {started : List TrackerT}
    (hrun : startTrackersLoop heap fuel (some a) = some started) : started ≠ [] := by
  cases fuel with
  | zero => cases hrun
  | succ fuel =>
      obtain ⟨n, -, hrun⟩ := Option.bind_eq_some_iff.mp hrun
      obtain ⟨rest, -, hrun⟩ := Option.bind_eq_some_iff.mp hrun
      rw [← Option.some.inj hrun]
      exact List.cons_ne_nil n rest

/-- The trackers of the client are those made. -/
theorem Made.started (hm : Made c heap ps urls prev) (hne : ps ≠ []) :
    ∃ started, clientStartTrackers c heap = some started ∧ started.map TrackerT.url = urls := by
  obtain ⟨started, hrun, hmap⟩ := startTrackersLoop_spec (hm.chain hne) (hm.chain hne).length_le
  refine ⟨started, hrun, ?_⟩
  have hurls : (started.map TrackerT.url).map some = urls.map some := by
    calc (started.map TrackerT.url).map some
        = (started.map some).map (Option.map TrackerT.url) := by
          rw [List.map_map, List.map_map]
          rfl
      _ = ps.map fun a => (heap[a]?).map TrackerT.url := by
          rw [hmap, List.map_map]
          rfl
      _ = urls.map some := hm.urls
  exact List.map_injective_iff.mpr (Option.some_injective _) hurls

/-! ## The trackers of the metainfo file -/

/-- The metainfo file names a tracker: there is a tier, or there is `announce`. -/
def HasTracker (dict : BencodeDict) : Prop :=
  (∃ v tiers, Torrent.lookup dict announceListKey = some v ∧ listOf v = some tiers ∧ tiers ≠ []) ∨
    Torrent.lookup dict announceKey ≠ none

/-- After `prepare_trackers`, `client_init` and `client_init_trackers`, all within their arrays,
following `c->trackers` and `next` gives `tracker_count` trackers and then `NULL`, and their URLs are
the first of each tier and then that of `announce`. -/
def Follows (m : Memory) (bencode : UInt64) (dict : BencodeDict) (t : Heap.TorrentT)
    (config : ClientConfig) (c : ClientT) (heap : List TrackerT) : Prop :=
  ∃ m' t' c' heap' started, prepareTrackers m bencode t = some (m', t') ∧
    clientInitTrackers (clientInit c config t') heap = some (c', heap') ∧
    clientStartTrackers c' heap' = some started ∧ (started.length : Int) = t'.trackerCount ∧
    some (started.map TrackerT.url) = expectedUrls dict

/-- There is an expected URL exactly if the metainfo file names a tracker. -/
theorem ne_nil_iff_hasTracker (hurls : expectedUrls dict = some urls) : urls ≠ [] ↔ HasTracker dict := by
  obtain ⟨listed, hlisted, hurls⟩ := Option.bind_eq_some_iff.mp hurls
  obtain ⟨announced, hannounced, hurls⟩ := Option.bind_eq_some_iff.mp hurls
  obtain rfl := Option.some.inj hurls
  rw [HasTracker, ← not_iff_not, not_not, List.append_eq_nil_iff, not_or, not_not]
  refine and_congr ?_ ?_
  · rw [announceListUrls] at hlisted
    cases hfound : Torrent.lookup dict announceListKey with
    | none =>
        rw [hfound] at hlisted
        refine iff_of_true (Option.some.inj hlisted).symm ?_
        rintro ⟨v, _, hv, _⟩
        cases hv
    | some w =>
        rw [hfound] at hlisted
        obtain ⟨tiers, htiers, hlisted⟩ := Option.bind_eq_some_iff.mp hlisted
        have hcount := (mapM_eq_some_iff.mp hlisted).length_eq
        rw [← List.length_eq_zero_iff, ← hcount, List.length_eq_zero_iff]
        refine ⟨fun hnil => ?_, fun h => by_contra fun hne => h ⟨w, tiers, rfl, htiers, hne⟩⟩
        rintro ⟨v, tiers', hv, htiers', hne⟩
        obtain rfl := Option.some.inj hv
        exact hne ((Option.some.inj (htiers'.symm.trans htiers)).trans hnil)
  · rw [announceUrls] at hannounced
    cases hfound : Torrent.lookup dict announceKey with
    | none =>
        rw [hfound] at hannounced
        exact iff_of_true (Option.some.inj hannounced).symm rfl
    | some w =>
        rw [hfound] at hannounced
        obtain ⟨str, -, hannounced⟩ := Option.bind_eq_some_iff.mp hannounced
        obtain rfl := Option.some.inj hannounced
        exact iff_of_false (List.cons_ne_nil _ _) fun h => by cases h

/-- The chain that is made of the URLs, and what is followed of it. -/
theorem clientInitTrackers_spec {rest : List UrlSlot} (hcount : c.torrent.trackerCount = urls.length)
    (hurls : c.torrent.trackerUrls = urls.map some ++ rest) (hmax : (urls.length : Int) ≤ intMax) :
    ∃ c' heap', clientInitTrackers c heap = some (c', heap') ∧
      (urls = [] → c' = c) ∧
      (urls ≠ [] → ∃ started, clientStartTrackers c' heap' = some started ∧
        started.map TrackerT.url = urls) := by
  obtain ⟨c', heap', ps, prev, hrun, hmade, hsame⟩ := initTrackersLoop_spec (Made.nil c heap)
    (by rw [hurls]; rfl) (by rwa [List.length_nil, Nat.zero_add])
  rw [List.nil_append] at hmade
  refine ⟨c', heap', by rw [clientInitTrackers, hcount]; exact hrun, hsame, fun hne => ?_⟩
  refine hmade.started fun hnil => hne ?_
  have hmap := hmade.urls
  rw [hnil, List.map_nil, eq_comm, List.map_eq_nil_iff] at hmap
  exact hmap

/-- The run, if an `int` counts the trackers: the chain that `client_start_trackers` follows is that of
the expected URLs, unless there are none. -/
theorem follows_of_counted (hrep : Represents m bencode v) (hv : dictOf v = some dict)
    (h : TrackersShaped dict) (hcounted : TiersCounted dict) (t : Heap.TorrentT)
    (config : ClientConfig) (c : ClientT) (heap : List TrackerT)
    (hheld : c.trackers = none ∨ HasTracker dict) : Follows m bencode dict t config c heap := by
  obtain ⟨m', t', urls, rest, hprepare, hurls, hmax, hcount, hslots⟩ :=
    prepareTrackers_of_counted hrep hv h hcounted t
  obtain ⟨c', heap', hinit, hnil, hcons⟩ :=
    @clientInitTrackers_spec (clientInit c config t') heap urls rest hcount hslots hmax
  by_cases hne : urls = []
  · have hnone : c'.trackers = none := by
      rw [hnil hne]
      exact hheld.resolve_right fun hhas => (ne_nil_iff_hasTracker hurls).mpr hhas hne
    refine ⟨m', t', c', heap', [], hprepare, hinit, ?_, ?_, ?_⟩
    · rw [clientStartTrackers, hnone, startTrackersLoop]
    · rw [hcount, hne]
      rfl
    · rw [hurls, hne]
      rfl
  · obtain ⟨started, hstart, hmap⟩ := hcons hne
    refine ⟨m', t', c', heap', started, hprepare, hinit, hstart, ?_, ?_⟩
    · rw [hcount, ← hmap, List.length_map]
    · rw [hurls, hmap]

/-- Without a tracker, what is followed is what `c->trackers` was before. -/
theorem trackers_of_follows (hrep : Represents m bencode v) (hv : dictOf v = some dict)
    (h : TrackersShaped dict) {config : ClientConfig} (hfollows : Follows m bencode dict t config c heap) :
    TiersCounted dict ∧ (c.trackers = none ∨ HasTracker dict) := by
  obtain ⟨m', t', c', heap', started, hprepare, hinit, hstart, hlen, hurls⟩ := hfollows
  have hcounted := tiersCounted_of_prepareTrackers hrep hv h hprepare
  refine ⟨hcounted, or_iff_not_imp_right.mpr fun hhas => ?_⟩
  obtain ⟨m₁, t₁, urls, rest, hprepare₁, hurls₁, hmax, hcount, hslots⟩ :=
    prepareTrackers_of_counted hrep hv h hcounted t
  obtain ⟨-, rfl⟩ := Prod.mk.inj (Option.some.inj (hprepare.symm.trans hprepare₁))
  obtain rfl : urls = [] := by
    by_contra hne
    exact hhas ((ne_nil_iff_hasTracker hurls₁).mp hne)
  -- the loop makes no turn
  obtain ⟨c₁, heap₁, hinit₁, hnil, -⟩ :=
    @clientInitTrackers_spec (clientInit c config t') heap [] rest hcount hslots hmax
  obtain ⟨rfl, rfl⟩ := Prod.mk.inj (Option.some.inj (hinit.symm.trans hinit₁))
  rw [hnil rfl] at hstart
  have hnone : started = [] := by
    rw [hurls₁] at hurls
    exact List.map_eq_nil_iff.mp (Option.some.inj hurls)
  cases htrackers : c.trackers with
  | none => rfl
  | some a =>
      have hstart : startTrackersLoop heap' heap'.length c.trackers = some started := hstart
      rw [htrackers] at hstart
      exact absurd hnone (ne_nil_of_startTrackersLoop hstart)

/-- **The chain of trackers matches the metainfo file** exactly if an `int` counts the trackers and,
where the file names no tracker, `c->trackers` was `NULL` before. -/
theorem follows_iff (hrep : Represents m bencode v) (hv : dictOf v = some dict)
    (h : TrackersShaped dict) (t : Heap.TorrentT) (config : ClientConfig) (c : ClientT)
    (heap : List TrackerT) :
    Follows m bencode dict t config c heap ↔
      TiersCounted dict ∧ (c.trackers = none ∨ HasTracker dict) :=
  ⟨trackers_of_follows hrep hv h,
    fun ⟨hcounted, hheld⟩ => follows_of_counted hrep hv h hcounted t config c heap hheld⟩

/-! ### A file with trackers, and one without -/

/-- `"u"` -/
def oneUrl : BencodeValue := .string ⟨some ⟨0, [117]⟩, 1⟩ 0 0

/-- A tier of one URL. -/
def oneTier : BencodeValue := .list (List.replicate 1 oneUrl) 0 0

/-- A metainfo file of one tier and `announce`. -/
def tiered : BencodeDict :=
  dictWith [(announceListKey, .list (List.replicate 1 oneTier) 0 0), (announceKey, oneUrl)]

/-- A metainfo file without a tracker. -/
def trackerless : BencodeDict := dictWith []

/-- A torrent before loading. -/
def unloaded : Heap.TorrentT := ⟨[], ⟨0, none, .singleFile, none, 0, []⟩, 0, []⟩

/-- A client whose `trackers` points nowhere. -/
def stale : ClientT := ⟨listNew 8, unloaded, defaultConfig, some 0⟩

/-- The trackers of the first file. -/
theorem shaped_tiered : TrackersShaped tiered ∧ TiersCounted tiered ∧ HasTracker tiered := by
  have htiers : Torrent.lookup tiered announceListKey =
      some (.list (List.replicate 1 oneTier) 0 0) := by
    rw [tiered, lookup_pair, if_neg (by decide), if_pos (by decide)]
  have hannounce : Torrent.lookup tiered announceKey = some oneUrl := by
    rw [tiered, lookup_pair, if_pos (by decide)]
  have htier : SomeStrings oneTier := by
    refine ⟨_, rfl, List.cons_ne_nil oneUrl [], fun e he => ?_⟩
    obtain rfl := List.eq_of_mem_replicate he
    rfl
  refine ⟨⟨fun w hw => ?_, fun w hw => ?_⟩, fun w tiers hw htiers' => ⟨?_, ?_⟩, .inr ?_⟩
  · obtain rfl := Option.some.inj (htiers.symm.trans hw)
    refine ⟨_, rfl, fun e he => ?_⟩
    obtain rfl := List.eq_of_mem_replicate he
    exact htier
  · obtain rfl := Option.some.inj (hannounce.symm.trans hw)
    rfl
  · obtain rfl := Option.some.inj (htiers.symm.trans hw)
    obtain rfl := Option.some.inj htiers'
    decide
  · obtain rfl := Option.some.inj (htiers.symm.trans hw)
    obtain rfl := Option.some.inj htiers'
    intro e he urls hurls
    obtain rfl := List.eq_of_mem_replicate he
    obtain rfl := Option.some.inj hurls
    decide
  · rw [hannounce]
    exact Option.some_ne_none oneUrl

/-- The first file is in some memory. -/
theorem exists_tiered : ∃ m, Represents m 8 (.dict tiered 0 0) := by
  obtain ⟨tiers, ps, htiers, -⟩ := exists_list [24] (by decide)
  obtain ⟨urls, ps', hurls, -⟩ := exists_list [32] (by decide)
  let m := Memory.ofCells [(8, .dict (pointersWith [(announceListKey, 16), (announceKey, 32)])),
    (16, .list tiers), (24, .list urls), (32, .string ⟨some ⟨0, [117]⟩, 1⟩)] (by simp)
  have hurl : Represents m 32 oneUrl := .string rfl
  have htier : Represents m 24 oneTier := .replicate rfl hurls hurl 0 0
  have hlist : Represents m 16 (.list (List.replicate 1 oneTier) 0 0) := .replicate rfl htiers htier 0 0
  exact ⟨m, .dictWith [(announceListKey, 16, .list (List.replicate 1 oneTier) 0 0),
    (announceKey, 32, oneUrl)] rfl
    (List.forall_mem_cons.mpr ⟨hlist, List.forall_mem_singleton.mpr hurl⟩) 0 0⟩

/-- The first file, for a client whose `trackers` points nowhere before. -/
theorem follows_iff_example :
    ∃ m, Represents m 8 (.dict tiered 0 0) ∧ Follows m 8 tiered unloaded defaultConfig stale [] := by
  obtain ⟨m, hrep⟩ := exists_tiered
  obtain ⟨hshaped, hcounted, hhas⟩ := shaped_tiered
  exact ⟨m, hrep, (follows_iff hrep rfl hshaped unloaded defaultConfig stale []).mpr
    ⟨hcounted, .inr hhas⟩⟩

/-- **Without a tracker, `c->trackers` is not written**, and a pointer to nothing is followed. -/
theorem not_follows :
    ∃ m, Represents m 8 (.dict trackerless 0 0) ∧ TrackersShaped trackerless ∧
      TiersCounted trackerless ∧ ¬ Follows m 8 trackerless unloaded defaultConfig stale [] := by
  have hnone : ∀ key, Torrent.lookup trackerless key = none :=
    fun key => Hashtable.Table.WF.init.get_eq_lookup strKeys_lawful _
  have hshaped : TrackersShaped trackerless :=
    ⟨fun w hw => (Option.some_ne_none w (hw.symm.trans (hnone _))).elim,
      fun w hw => (Option.some_ne_none w (hw.symm.trans (hnone _))).elim⟩
  have hcounted : TiersCounted trackerless :=
    fun w tiers hw => (Option.some_ne_none w (hw.symm.trans (hnone _))).elim
  let m := Memory.ofCells [(8, .dict (pointersWith []))] (by simp)
  have hrep : Represents m 8 (.dict trackerless 0 0) :=
    .dictWith [] rfl (fun e he => absurd he List.not_mem_nil) 0 0
  refine ⟨m, hrep, hshaped, hcounted, fun hfollows => ?_⟩
  rcases (trackers_of_follows hrep rfl hshaped hfollows).2 with htrackers | ⟨w, _, hw, -⟩ | hannounce
  · cases htrackers
  · exact Option.some_ne_none w (hw.symm.trans (hnone _))
  · exact hannounce (hnone _)

end Flood.Client.Heap
