import Flood.Tracker.Connection

/-!
# What a tracker reports

* `encodedPeers bytes` — the peers a datagram encodes.
* `BelievesAnswers t env` — a call whose announce is answered reports the peers the answer encodes;
  any other call reports nothing and returns an error code.
* `AnsweredWell t env` — the announce, if there is one, receives an answer that ends with a peer,
  fits the buffer, and is not without peers unless the pointer that is not written happens to be
  `NULL`.
* `believes_answers_iff` — the calls of a run believe answers only, exactly if each is answered well.
  Neither the size of the response nor its action nor its transaction id is looked at.
-/

namespace Flood.Tracker

open Flood.Lib

variable {t : TrackerT} {env : Env} {bytes : List UInt8}
  {req : AnnounceReq} {reply : Reply} {events : List Event}

/-- The datagram answers the announce request with this transaction id. -/
def AnnounceAnswered (transactionId : UInt32) (bytes : List UInt8) : Prop :=
  20 ≤ bytes.length ∧ netWord bytes 0 = 1 ∧ netWord bytes 4 = transactionId

instance (transactionId : UInt32) (bytes : List UInt8) :
    Decidable (AnnounceAnswered transactionId bytes) :=
  inferInstanceAs (Decidable (_ ∧ _))

/-- The peer encoded in the six bytes from `i` on. -/
def peerAt (bytes : List UInt8) (i : Nat) : UdptPeer := ⟨netWord bytes i, netShort bytes (i + 4)⟩

/-- The peers encoded in a datagram: six bytes each from byte 20 on. -/
def encodedPeers (bytes : List UInt8) : List UdptPeer :=
  (List.range ((bytes.length - 20) / 6)).map fun k => peerAt bytes (20 + 6 * k)

/-- A peer as it is passed to `find_fn`. -/
def UdptPeer.discovered (peer : UdptPeer) : DiscoveredPeer := ⟨peer.ip, peer.port⟩

/-- The peers reported, in order. -/
def reported (events : List Event) : List DiscoveredPeer :=
  events.filterMap fun
    | .found peer => some peer
    | _ => none

/-- A call believes answers to its own announce, and nothing else. -/
structure BelievesAnswers (t : TrackerT) (env : Env) : Prop where
  /-- The peers of an answer are reported. -/
  answered : ∀ req bytes, .announce req (some bytes) ∈ (trackerAnnounceUdp t env).events →
    AnnounceAnswered req.transactionId bytes →
      (trackerAnnounceUdp t env).code ≠ none ∧
        reported (trackerAnnounceUdp t env).events =
          (encodedPeers bytes).map UdptPeer.discovered
  /-- Without an answer nothing is reported, and the call fails. -/
  unanswered : (∀ req bytes, .announce req (some bytes) ∈ (trackerAnnounceUdp t env).events →
    ¬ AnnounceAnswered req.transactionId bytes) →
      reported (trackerAnnounceUdp t env).events = [] ∧
        ∃ code, (trackerAnnounceUdp t env).code = some code ∧ code ≠ 0

/-- The call comes to announce: there is a socket, or one is created and the response to the connect
request shows its transaction id. -/
def Announces (t : TrackerT) (env : Env) : Prop :=
  t.sockFd = -1 → ¬ SocketFails env ∧
    (receiveConnectResponse env.connectJunk env.connectReply).2.transactionId = env.connectRand

/-- The datagram ends with a peer, fits the buffer (of 1022 bytes, or five more that are no peer), and
has a peer unless the pointer that is not written happens to be `NULL`. -/
def ReadWell (env : Env) (bytes : List UInt8) : Prop :=
  (bytes.length ≤ 1022 → 6 ∣ bytes.length - 20) ∧ bytes.length < 1028 ∧
    (bytes.length = 20 → env.announceJunk.peers = .chain [])

/-- The announce, if the call comes to it, receives an answer that is read well. -/
def AnsweredWell (t : TrackerT) (env : Env) : Prop :=
  Announces t env → ∃ bytes, env.announceReply = some bytes ∧
    AnnounceAnswered env.announceRand bytes ∧ ReadWell env bytes

/-! ## Reading peers -/

/-- A peer is encoded in six bytes. -/
theorem peerAt_congr {a b : List UInt8} {i : Nat} (h : a.take (i + 6) = b.take (i + 6)) :
    peerAt a i = peerAt b i := by
  have hword : (a.drop i).take 4 = (b.drop i).take 4 := by
    rw [List.take_drop, List.take_drop]
    have h4 := congrArg (List.take (4 + i)) h
    rw [List.take_take, List.take_take, min_eq_left (by omega), Nat.add_comm] at h4
    rw [h4]
  have hbyte : ∀ j < i + 6, a.getD j 0 = b.getD j 0 := by
    intro j hj
    rw [List.getD_eq_getElem?_getD, List.getD_eq_getElem?_getD, ← List.getElem?_take_of_lt hj, h,
      List.getElem?_take_of_lt hj]
  unfold peerAt netWord netShort
  rw [hword, hbyte (i + 4) (by omega), hbyte (i + 4 + 1) (by omega)]

/-- The loop reads a peer at every sixth byte. -/
theorem peerLoop_eq (buffer : List UInt8) (size : Nat) (fuel i : Nat) (hfuel : size ≤ fuel + i) :
    peerLoop buffer size fuel i =
      (List.range ((size - i + 5) / 6)).map fun k => peerAt buffer (i + 6 * k) := by
  induction fuel generalizing i with
  | zero =>
      have hsize : (size - i + 5) / 6 = 0 := by omega
      rw [hsize]
      rfl
  | succ fuel ih =>
      unfold peerLoop
      split_ifs with hi
      · have hsize : (size - i + 5) / 6 = (size - (i + 6) + 5) / 6 + 1 := by omega
        rw [ih (i + 6) (by omega), hsize, List.range_succ_eq_map, List.map_cons, List.map_map]
        refine congrArg₂ List.cons rfl (List.map_congr_left fun k _ => ?_)
        rw [Function.comp_apply, Nat.succ_eq_add_one, Nat.mul_add, Nat.mul_one, Nat.add_assoc,
          Nat.add_comm 6]
      · have hsize : (size - i + 5) / 6 = 0 := by omega
        rw [hsize]
        rfl

/-- The peers read, at every sixth byte of the buffer. -/
theorem readPeers_eq (junk : List UInt8) (reply : Reply) :
    readPeers junk reply = (List.range (((received 1022 reply).length - 20 + 5) / 6)).map
      fun k => peerAt (received 1022 reply ++ junk) (20 + 6 * k) :=
  peerLoop_eq _ _ _ 20 (by omega)

/-- What is left of a datagram. -/
theorem length_received (bytes : List UInt8) :
    (received 1022 (some bytes)).length = min 1022 bytes.length :=
  List.length_take

/-- The peers read are the peers encoded if the datagram ends with a peer, and what is lost of it
encodes none. -/
theorem readPeers_eq_encodedPeers_iff (junk : List UInt8) (hlen : 20 ≤ bytes.length) :
    readPeers junk (some bytes) = encodedPeers bytes ↔
      (bytes.length ≤ 1022 → 6 ∣ bytes.length - 20) ∧ bytes.length < 1028 := by
  rw [readPeers_eq, length_received, encodedPeers]
  constructor
  · intro h
    have hcount := congrArg List.length h
    simp only [List.length_map, List.length_range] at hcount
    omega
  · intro h
    have hcount : (min 1022 bytes.length - 20 + 5) / 6 = (bytes.length - 20) / 6 := by omega
    rw [hcount]
    apply List.map_congr_left
    intro k hk
    have hfit : 20 + 6 * k + 6 ≤ min 1022 bytes.length := by
      rw [List.mem_range] at hk
      omega
    apply peerAt_congr
    rw [List.take_append_of_le_length (by rw [length_received]; exact hfit)]
    show (bytes.take 1022).take _ = _
    rw [List.take_take, min_eq_left (by omega)]

/-- No peers are read of the shortest datagram only. -/
theorem readPeers_eq_nil_iff (junk : List UInt8) (hlen : 20 ≤ bytes.length) :
    readPeers junk (some bytes) = [] ↔ bytes.length = 20 := by
  rw [readPeers_eq, length_received, List.map_eq_nil_iff, List.range_eq_nil]
  omega

/-- The pointer to the peers after a datagram that is long enough. -/
theorem receiveAnnounceResponse_peers (junk : List UInt8) (res : AnnounceResp)
    (hlen : 20 ≤ bytes.length) :
    (receiveAnnounceResponse junk res (some bytes)).2.peers =
      if bytes.length = 20 then res.peers else .chain (readPeers junk (some bytes)) := by
  have hsize : ¬ recvSize 1022 (some bytes) < 20 := by
    unfold recvSize
    rw [length_received]
    simp
    omega
  unfold receiveAnnounceResponse
  rw [if_neg hsize]
  exact if_congr (readPeers_eq_nil_iff junk hlen) rfl rfl

/-- The pointer leads through the peers encoded exactly if the datagram is read well. -/
theorem peers_eq_encodedPeers_iff (hlen : 20 ≤ bytes.length) :
    (receiveAnnounceResponse env.bufferJunk env.announceJunk (some bytes)).2.peers =
        .chain (encodedPeers bytes) ↔
      ReadWell env bytes := by
  rw [receiveAnnounceResponse_peers _ _ hlen]
  unfold ReadWell
  split_ifs with h20
  · have hnone : encodedPeers bytes = [] := by simp [encodedPeers, h20]
    simp [hnone, h20]
  · rw [PeerList.chain.injEq, readPeers_eq_encodedPeers_iff _ hlen]
    simp [h20]

/-! ## One call -/

/-- A peer passed to `find_fn` shows what was received. -/
theorem discovered_injective : Function.Injective UdptPeer.discovered := by
  rintro ⟨ip, port⟩ ⟨ip', port'⟩ h
  obtain ⟨rfl, rfl⟩ := DiscoveredPeer.mk.inj h
  rfl

/-- What the announce reports. -/
theorem reported_announce (hf : t.findFn = true) {peers : List UdptPeer}
    (h : (receiveAnnounceResponse env.bufferJunk env.announceJunk env.announceReply).2.peers =
      .chain peers) :
    (announce t env).code = some 0 ∧
      reported (announce t env).events = peers.map UdptPeer.discovered := by
  unfold announce
  rw [h]
  refine ⟨rfl, ?_⟩
  simp [hf, reported, UdptPeer.discovered]

/-- A wild pointer is followed. -/
theorem announce_code_of_wild
    (h : (receiveAnnounceResponse env.bufferJunk env.announceJunk env.announceReply).2.peers =
      .wild) :
    (announce t env).code = none := by
  unfold announce
  rw [h]

/-- One announce request is sent. -/
theorem mem_announce_iff :
    .announce req reply ∈ (announce t env).events ↔
      req = announceReq t env ∧ reply = env.announceReply := by
  unfold announce
  split
  · split_ifs <;> simp
  · simp

/-- The event is about a connect request. -/
def Event.Connecting : Event → Prop
  | .connect _ _ => True
  | _ => False

/-- Connect requests report nothing. -/
theorem reported_append (h : ∀ e ∈ events, e.Connecting) (later : List Event) :
    reported (events ++ later) = reported later := by
  unfold reported
  rw [List.filterMap_append, List.filterMap_eq_nil_iff.mpr, List.nil_append]
  intro e he
  have hc := h e he
  cases e with
  | connect req reply => rfl
  | announce req reply => exact hc.elim
  | found peer => exact hc.elim

/-- A call that does not come to announce fails. -/
theorem call_of_not_announces (h : ¬ Announces t env) :
    (∃ code, (trackerAnnounceUdp t env).code = some code ∧ code ≠ 0) ∧
      ∀ e ∈ (trackerAnnounceUdp t env).events, e.Connecting := by
  unfold Announces at h
  push Not at h
  obtain ⟨ht, htid⟩ := h
  by_cases hsock : SocketFails env
  · rw [trackerAnnounceUdp_of_fails ht hsock]
    exact ⟨⟨_, rfl, hsock⟩, fun e he => absurd he List.not_mem_nil⟩
  · have hbad : (receiveConnectResponse env.connectJunk env.connectReply).2.transactionId ≠
        (connectReq env).transactionId := htid hsock
    rw [trackerAnnounceUdp_of_connects ht hsock, connect, if_pos hbad]
    refine ⟨⟨-1, rfl, by decide⟩, fun e he => ?_⟩
    rw [List.mem_singleton.mp he]
    trivial

/-- A call that comes to announce, perhaps after connecting. -/
theorem call_of_announces (h : Announces t env) :
    ∃ (t' : TrackerT) (events : List Event), t'.findFn = t.findFn ∧
      (∀ e ∈ events, e.Connecting) ∧
      (trackerAnnounceUdp t env).code = (announce t' env).code ∧
      (trackerAnnounceUdp t env).events = events ++ (announce t' env).events := by
  by_cases ht : t.sockFd = -1
  · obtain ⟨hsock, htid⟩ := h ht
    have hgood : ¬ (receiveConnectResponse env.connectJunk env.connectReply).2.transactionId ≠
        (connectReq env).transactionId := not_not.mpr htid
    rw [trackerAnnounceUdp_of_connects ht hsock, connect, if_neg hgood]
    refine ⟨_, [.connect (connectReq env) env.connectReply], ?_, ?_, rfl, rfl⟩
    · rfl
    · intro e he
      rw [List.mem_singleton.mp he]
      trivial
  · rw [trackerAnnounceUdp_of_connected ht]
    exact ⟨t, [], rfl, fun e he => absurd he List.not_mem_nil, rfl, rfl⟩

/-- A call that does not come to announce is as it should be. -/
theorem believesAnswers_of_not_announces (h : ¬ Announces t env) : BelievesAnswers t env := by
  obtain ⟨hcode, hconn⟩ := call_of_not_announces h
  constructor
  · intro req bytes hmem
    exact (hconn _ hmem).elim
  · intro _
    have hnone := reported_append hconn []
    rw [List.append_nil] at hnone
    exact ⟨hnone, hcode⟩

/-- A call that comes to announce is as it should be exactly if it receives an answer that is read
well. -/
theorem believesAnswers_iff_of_announces (hf : t.findFn = true) (h : Announces t env) :
    BelievesAnswers t env ↔ ∃ bytes, env.announceReply = some bytes ∧
      AnnounceAnswered env.announceRand bytes ∧ ReadWell env bytes := by
  obtain ⟨t', events, hf', hconn, hcode, hevents⟩ := call_of_announces h
  rw [hf] at hf'
  have hmem : ∀ req reply, .announce req reply ∈ (trackerAnnounceUdp t env).events ↔
      req = announceReq t' env ∧ reply = env.announceReply := by
    intro req reply
    rw [hevents, List.mem_append, mem_announce_iff]
    exact or_iff_right fun he => hconn _ he
  have hreported : reported (trackerAnnounceUdp t env).events =
      reported (announce t' env).events := by rw [hevents, reported_append hconn]
  constructor
  · intro hb
    by_cases hans : ∃ bytes, env.announceReply = some bytes ∧
        AnnounceAnswered env.announceRand bytes
    · obtain ⟨bytes, hreply, hans⟩ := hans
      refine ⟨bytes, hreply, hans, ?_⟩
      obtain ⟨hend, hall⟩ := hb.answered (announceReq t' env) bytes
        ((hmem _ _).mpr ⟨rfl, hreply.symm⟩) hans
      rw [← peers_eq_encodedPeers_iff hans.1, ← hreply]
      cases hpeers : (receiveAnnounceResponse env.bufferJunk env.announceJunk
          env.announceReply).2.peers with
      | wild => exact absurd (hcode.trans (announce_code_of_wild hpeers)) hend
      | chain peers =>
          rw [hreported, (reported_announce hf' hpeers).2] at hall
          rw [discovered_injective.list_map hall]
    · have hno : ∀ req bytes, .announce req (some bytes) ∈ (trackerAnnounceUdp t env).events →
          ¬ AnnounceAnswered req.transactionId bytes := by
        intro req bytes hann hans'
        obtain ⟨rfl, hreply⟩ := (hmem _ _).mp hann
        exact hans ⟨bytes, hreply.symm, hans'⟩
      obtain ⟨-, code, hfail, hne⟩ := hb.unanswered hno
      rw [hcode] at hfail
      cases hpeers : (receiveAnnounceResponse env.bufferJunk env.announceJunk
          env.announceReply).2.peers with
      | wild => exact absurd ((announce_code_of_wild hpeers).symm.trans hfail) (by simp)
      | chain peers =>
          exact absurd (Option.some.inj (hfail.symm.trans (reported_announce hf' hpeers).1)) hne
  · rintro ⟨bytes, hreply, hans, hread⟩
    have hpeers := (peers_eq_encodedPeers_iff hans.1).mpr hread
    rw [← hreply] at hpeers
    obtain ⟨hzero, hall⟩ := reported_announce hf' hpeers
    constructor
    · intro req bytes' hann _
      obtain ⟨-, hreply'⟩ := (hmem _ _).mp hann
      obtain rfl := Option.some.inj (hreply'.trans hreply)
      exact ⟨by rw [hcode, hzero]; simp, hreported.trans hall⟩
    · intro hno
      exact absurd hans (hno _ bytes ((hmem _ _).mpr ⟨rfl, hreply.symm⟩))

/-! ## Runs -/

/-- Calls keep `find_fn`. -/
theorem findFn_trackerAnnounceUdp (t : TrackerT) (env : Env) :
    (trackerAnnounceUdp t env).tracker.findFn = t.findFn := by
  unfold trackerAnnounceUdp connect
  split_ifs <;> simp

/-- Every call of a run starts with the same `find_fn`. -/
theorem findFn_of_mem_calls {t : TrackerT} {envs : List Env} {c : TrackerT × Env}
    (h : c ∈ calls t envs) : c.1.findFn = t.findFn := by
  induction envs generalizing t with
  | nil => exact absurd h List.not_mem_nil
  | cons env envs ih =>
      rcases List.mem_cons.mp h with rfl | h
      · rfl
      · split_ifs at h with hcode
        · exact (ih h).trans (findFn_trackerAnnounceUdp t env)
        · exact absurd h List.not_mem_nil

/-- **Only answers to the announce are believed** in every call of a run after `tracker_start`
exactly if every announce of the run receives an answer that is read well. -/
theorem believes_answers_iff (t : TrackerT) (hf : t.findFn = true) (envs : List Env) :
    (∀ c ∈ calls (trackerStart t) envs, BelievesAnswers c.1 c.2) ↔
      ∀ c ∈ calls (trackerStart t) envs, AnsweredWell c.1 c.2 := by
  refine forall₂_congr fun c hc => ?_
  have hfc : c.1.findFn = true := (findFn_of_mem_calls hc).trans hf
  unfold AnsweredWell
  by_cases h : Announces c.1 c.2
  · rw [believesAnswers_iff_of_announces hfc h]
    exact ⟨fun hb _ => hb, fun hb => hb h⟩
  · exact iff_of_true (believesAnswers_of_not_announces h) fun h' => absurd h' h

/-- A tracker with a `find_fn`, called twice without an answer. -/
theorem believes_answers_iff_example :
    (∀ c ∈ calls (trackerStart ⟨-1, 0, [], true⟩) [silent, silent], BelievesAnswers c.1 c.2) ↔
      ∀ c ∈ calls (trackerStart ⟨-1, 0, [], true⟩) [silent, silent], AnsweredWell c.1 c.2 :=
  believes_answers_iff ⟨-1, 0, [], true⟩ rfl [silent, silent]

/-- The tracker connects; 26 bytes of zero answer the announce. -/
def forged : Env := { silent with
  connectReply := some (List.replicate 4 0 ++ leBytes (bswap32 7) ++ List.replicate 8 1)
  announceReply := some (List.replicate 26 0) }

/-- A datagram with another action and another transaction id is believed. -/
theorem forged_datagram_believed :
    (trackerAnnounceUdp (trackerStart ⟨-1, 0, [], true⟩) forged).code = some 0 ∧
      reported (trackerAnnounceUdp (trackerStart ⟨-1, 0, [], true⟩) forged).events = [⟨0, 0⟩] ∧
      ¬ ∀ c ∈ calls (trackerStart ⟨-1, 0, [], true⟩) [forged], BelievesAnswers c.1 c.2 := by
  have hcode : (trackerAnnounceUdp (trackerStart ⟨-1, 0, [], true⟩) forged).code = some 0 := by
    decide +kernel
  have hevents : ∃ req, (trackerAnnounceUdp (trackerStart ⟨-1, 0, [], true⟩) forged).events =
      [.connect (connectReq forged) forged.connectReply,
        .announce req (some (List.replicate 26 0)), .found ⟨0, 0⟩] :=
    ⟨announceReq ⟨3, 0x101010101010101, [], true⟩ forged, by decide +kernel⟩
  obtain ⟨req, hevents⟩ := hevents
  refine ⟨hcode, by rw [hevents]; rfl, fun h => ?_⟩
  have hb := h (trackerStart ⟨-1, 0, [], true⟩, forged) List.mem_cons_self
  have hno : ∀ req bytes,
      .announce req (some bytes) ∈
        (trackerAnnounceUdp (trackerStart ⟨-1, 0, [], true⟩) forged).events →
      ¬ AnnounceAnswered req.transactionId bytes := by
    intro req' bytes hann hans
    rw [hevents] at hann
    simp only [List.mem_cons, reduceCtorEq, Event.announce.injEq, Option.some.injEq, false_or,
      List.not_mem_nil, or_false] at hann
    obtain ⟨-, rfl⟩ := hann
    exact absurd hans.2.1 (by decide)
  obtain ⟨-, code, hfail, hne⟩ := hb.unanswered hno
  exact hne (Option.some.inj (hfail.symm.trans hcode))

end Flood.Tracker
