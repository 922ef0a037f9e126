import Flood.Client.Discovery
import Flood.Tracker.Decode
import Flood.Tracker.Wire

/-!
# An exchange with a tracker

A tracker that answers the requests it understands, and the runs of `tracker_announce_udp` against it.

* `sendConnectRequest` — the packet of a connect request.
* `Offer`, `announcePacket` — what a tracker has to say, and the packet it says it with;
  `receive_announcePacket` — it is understood.
* `Server` — the tracker: it looks at every field it should look at, and answers; `Served` — what was
  received for the requests of a call are its answers.
* `exchange` — a run against such a tracker: one connection, every announce under its id, and the peers
  that were offered, in order. `exchange_fills_list` — they are the peers of the client.
-/

namespace Flood.Tracker

open Flood.Lib

/-! ## The connect request -/

/-- The stores of `send_connect_request`, in order. -/
def connectStores (req : ConnectReq) : List (Nat × List UInt8) := [
  (0, leBytes64 (htonll req.connectionId.toInt64)),
  (8, leBytes (bswap32 req.action)),
  (12, leBytes (bswap32 req.transactionId))]

/-- The packet that is sent; the buffer holds `junk` at first.
Source: `udp_protocol.c`, `send_connect_request` -/
def sendConnectRequest (junk : List UInt8) (req : ConnectReq) : Option (List UInt8) :=
  storeAll (connectStores req) junk

/-- Its fields, one behind the other. -/
def connectRequestPacket (req : ConnectReq) : List UInt8 :=
  beBytes 8 req.connectionId.toNat ++ beBytes 4 req.action.toNat ++ beBytes 4 req.transactionId.toNat

/-- **The packet is its fields**, whatever the buffer held. -/
theorem sendConnectRequest_eq {junk : List UInt8} (hjunk : junk.length = 16) (req : ConnectReq) :
    sendConnectRequest junk req = some (connectRequestPacket req) := by
  have htiles : Tiles 0 (connectStores req) junk.length := by
    rw [hjunk]
    simp only [connectStores, htonll_eq, leBytes64_bswap64, leBytes_bswap32, Tiles, length_beBytes]
    decide
  rw [sendConnectRequest, storeAll_of_tiles htiles]
  simp [connectStores, connectRequestPacket, htonll_eq, leBytes64_bswap64, leBytes_bswap32]

/-! ## The announce response -/

/-- What a tracker has to say. -/
structure Offer where
  /-- When to announce again. -/
  interval : UInt32
  /-- How many leech. -/
  leechers : UInt32
  /-- How many seed. -/
  seeders : UInt32
  /-- The peers. -/
  peers : List UdptPeer

/-- The offer can be made: there is a peer, there are no more than the buffer of the client takes, and ports
have 16 bits. -/
structure Offer.Fits (offer : Offer) : Prop where
  /-- There is a peer. -/
  nonempty : offer.peers ≠ []
  /-- `20 + 6 * 167 = 1022` -/
  length : offer.peers.length ≤ 167
  /-- Ports have 16 bits. -/
  port : ∀ p ∈ offer.peers, p.port.toNat < 65536

/-- The six bytes of a peer. -/
def peerBytes (p : UdptPeer) : List UInt8 := beBytes 4 p.ip.toNat ++ beBytes 2 p.port.toNat

/-- The packet of an announce response. -/
def announcePacket (transactionId : UInt32) (offer : Offer) : List UInt8 :=
  beBytes 4 1 ++ beBytes 4 transactionId.toNat ++ beBytes 4 offer.interval.toNat ++
    beBytes 4 offer.leechers.toNat ++ beBytes 4 offer.seeders.toNat ++ offer.peers.flatMap peerBytes

variable {tid : UInt32} {offer : Offer} {peers : List UdptPeer}

/-- A peer has six bytes. -/
@[simp] theorem length_peerBytes (p : UdptPeer) : (peerBytes p).length = 6 := by
  simp [peerBytes]

/-- The peers have six bytes each. -/
@[simp] theorem length_flatMap_peerBytes : (peers.flatMap peerBytes).length = 6 * peers.length := by
  induction peers with
  | nil => rfl
  | cons p peers ih => simp [ih, Nat.mul_add, Nat.add_comm]

/-- The packet has 20 bytes, and those of the peers. -/
@[simp] theorem length_announcePacket : (announcePacket tid offer).length = 20 + 6 * offer.peers.length := by
  simp [announcePacket]
  omega

/-- What lies behind the first `k` peers are the others. -/
theorem drop_flatMap_peerBytes (k : Nat) :
    (peers.flatMap peerBytes).drop (6 * k) = (peers.drop k).flatMap peerBytes := by
  induction k generalizing peers with
  | zero => rfl
  | succ k ih =>
      cases peers with
      | nil => simp
      | cons p peers =>
          rw [List.flatMap_cons, List.drop_succ_cons, ← ih, Nat.mul_add, Nat.add_comm,
            ← List.drop_drop, List.drop_left' (length_peerBytes p)]

/-- The bytes of the packet from the `k`-th peer on. -/
theorem drop_announcePacket (k : Nat) :
    (announcePacket tid offer).drop (20 + 6 * k) = (offer.peers.drop k).flatMap peerBytes := by
  rw [← drop_flatMap_peerBytes, ← List.drop_drop]
  congr 1

/-- A peer is read from its bytes. -/
theorem peerAt_of_drop {bytes rest : List UInt8} {i : Nat} {p : UdptPeer} (hp : p.port.toNat < 65536)
    (h : bytes.drop i = peerBytes p ++ rest) : peerAt bytes i = p := by
  have hip : slice bytes i 4 = beBytes 4 p.ip.toNat := by
    rw [slice, h, peerBytes, List.append_assoc, List.take_left' (length_beBytes _ _)]
  have hport : (bytes.drop (i + 4)).take 2 = beBytes 2 p.port.toNat := by
    rw [← List.drop_drop, h, peerBytes, List.append_assoc, List.drop_left' (length_beBytes _ _),
      List.take_left' (length_beBytes _ _)]
  have hlen : i + 4 + 2 ≤ bytes.length := by
    have hl := congrArg List.length hport
    rw [List.length_take, List.length_drop, length_beBytes] at hl
    omega
  unfold peerAt
  rw [netWord_beBytes hip, netShort_eq hlen, numberAt, hport, bigEndian_beBytes,
    Nat.mod_eq_of_lt (by simpa using hp)]
  simp

/-- The peers encoded in the packet are those offered. -/
theorem encodedPeers_announcePacket (hf : offer.Fits) :
    encodedPeers (announcePacket tid offer) = offer.peers := by
  have hcount : ((announcePacket tid offer).length - 20) / 6 = offer.peers.length := by
    simp
  apply List.ext_getElem
  · rw [encodedPeers, List.length_map, List.length_range, hcount]
  · intro k hk hk'
    have hpeer : offer.peers[k] ∈ offer.peers := List.getElem_mem hk'
    simp only [encodedPeers, List.getElem_map, List.getElem_range]
    apply peerAt_of_drop (hf.port _ hpeer)
    rw [drop_announcePacket, List.drop_eq_getElem_cons hk', List.flatMap_cons]

/-- **An offer is understood**: its packet is read as it was written. -/
theorem receive_announcePacket (hf : offer.Fits) (junk : List UInt8) (res : AnnounceResp) :
    (receiveAnnounceResponse junk res (some (announcePacket tid offer))).2 =
      ⟨1, tid, offer.interval, offer.leechers, offer.seeders, offer.peers.length,
        .chain offer.peers⟩ := by
  have hpos : 0 < offer.peers.length := List.length_pos_iff.mpr hf.nonempty
  have hmin : 20 ≤ (announcePacket tid offer).length := by simp
  have hmax : (announcePacket tid offer).length ≤ 1022 := by
    have := hf.length
    rw [length_announcePacket]
    omega
  have hne : (announcePacket tid offer).length ≠ 20 := by
    rw [length_announcePacket]
    omega
  have hread : readPeers junk (some (announcePacket tid offer)) = offer.peers := by
    rw [(readPeers_eq_encodedPeers_iff junk hmin).mpr ⟨fun _ => ?_, by omega⟩,
      encodedPeers_announcePacket hf]
    simp
  have hword {i : Nat} {x : UInt32} (hi : i + 4 ≤ (announcePacket tid offer).length)
      (hx : slice (announcePacket tid offer) i 4 = beBytes 4 x.toNat) :
      numberAt (announcePacket tid offer) i 4 = x := by
    rw [← netWord_eq hi, netWord_beBytes hx]
  rw [receiveAnnounceResponse_eq junk res hmin hmax, if_neg hne, hread, announceResp,
    hword (by omega) (x := 1) rfl, hword (by omega) (x := tid) rfl,
    hword (by omega) (x := offer.interval) rfl, hword (by omega) (x := offer.leechers) rfl,
    hword (by omega) (x := offer.seeders) rfl]
  simp

/-! ## The tracker at the other end -/

/-- A tracker that gives every client this connection id. -/
structure Server where
  /-- The connection id. -/
  connectionId : UInt64

/-- The answer to a connect request. -/
def Server.answerConnect (server : Server) (packet : List UInt8) : Reply :=
  if packet.length = 16 ∧ slice packet 0 8 = beBytes 8 0x41727101980 ∧ slice packet 8 4 = beBytes 4 0 then
    some (connectPacket ⟨0, netWord packet 12, server.connectionId⟩)
  else none

/-- The answer to an announce request for a torrent. -/
def Server.answerAnnounce (server : Server) (infoHash : List UInt8) (offer : Offer)
    (packet : List UInt8) : Reply :=
  if packet.length = 100 ∧ slice packet 0 8 = beBytes 8 server.connectionId.toNat ∧
      slice packet 8 4 = beBytes 4 1 ∧ slice packet 16 20 = infoHash then
    some (announcePacket (netWord packet 12) offer)
  else none

/-- A call gets the answers of the tracker to the packets it sends, and to the announce this offer. -/
structure Served (server : Server) (offer : Offer) (t : TrackerT) (env : Env) : Prop where
  /-- There is a socket. -/
  socket : ¬ SocketFails env
  /-- What is received for a connect request. -/
  connect : ∀ req reply, .connect req reply ∈ (trackerAnnounceUdp t env).events →
    ∃ junk packet, junk.length = 16 ∧ sendConnectRequest junk req = some packet ∧
      reply = server.answerConnect packet
  /-- What is received for an announce request. -/
  announce : ∀ req reply, .announce req reply ∈ (trackerAnnounceUdp t env).events →
    ∃ packet, sendAnnounceRequest req = some packet ∧
      reply = server.answerAnnounce t.infoHash offer packet

/-- So does each call of a run. -/
def ServedAll (server : Server) : TrackerT → List (Env × Offer) → Prop
  | _, [] => True
  | t, round :: rounds => Served server round.2 t round.1 ∧
      ServedAll server (trackerAnnounceUdp t round.1).tracker rounds

/-- The connect request of the client is understood. -/
theorem Server.answerConnect_eq (server : Server) (env : Env) {junk packet : List UInt8}
    (hjunk : junk.length = 16) (hsend : sendConnectRequest junk (connectReq env) = some packet) :
    server.answerConnect packet = some (connectPacket ⟨0, env.connectRand, server.connectionId⟩) := by
  rw [sendConnectRequest_eq hjunk] at hsend
  obtain rfl := Option.some.inj hsend
  have htid : netWord (connectRequestPacket (connectReq env)) 12 = env.connectRand :=
    netWord_beBytes rfl
  rw [Server.answerConnect, if_pos ⟨rfl, rfl, rfl⟩, htid]

/-- The announce request of the client is understood, under the connection id it was given. -/
theorem Server.answerAnnounce_eq (server : Server) {t : TrackerT} (hid : t.connectionId = server.connectionId)
    (hhash : t.infoHash.length = 20) (env : Env) {packet : List UInt8}
    (hsend : sendAnnounceRequest (announceReq t env) = some packet) :
    server.answerAnnounce t.infoHash offer packet = some (announcePacket env.announceRand offer) := by
  have hsized : (announceReq t env).Sized := ⟨hhash, rfl⟩
  rw [sendAnnounceRequest_eq hsized] at hsend
  obtain rfl := Option.some.inj hsend
  have htid : netWord (WireField.all.flatMap fun f => f.bytes (announceReq t env)) 12 =
      env.announceRand := netWord_beBytes (slice_packet hsized .transactionId)
  have hconn : slice (WireField.all.flatMap fun f => f.bytes (announceReq t env)) 0 8 =
      beBytes 8 server.connectionId.toNat := hid ▸ slice_packet hsized .connectionId
  rw [Server.answerAnnounce, if_pos ⟨length_packet hsized, hconn, slice_packet hsized .action,
    slice_packet hsized .infoHash⟩, htid]

/-! ## One call -/

/-- The tracker has a connection from this server, or none. -/
structure Ready (server : Server) (t : TrackerT) : Prop where
  /-- The connection. -/
  connection : t.sockFd ≠ -1 → t.connectionId = server.connectionId
  /-- `torrent->info_hash` -/
  infoHash : t.infoHash.length = 20
  /-- There is a `find_fn`. -/
  findFn : t.findFn = true

/-- The requests to connect. -/
def connects (events : List Event) : Nat :=
  events.countP fun
    | .connect _ _ => true
    | _ => false

/-- What a served call comes to: the peers offered are reported, under the server's connection id. -/
structure Comes (server : Server) (offer : Offer) (t : TrackerT) (outcome : Outcome) : Prop where
  /-- The call succeeds. -/
  code : outcome.code = some 0
  /-- The connection stays. -/
  ready : Ready server outcome.tracker
  /-- There is one. -/
  socket : outcome.tracker.sockFd ≠ -1
  /-- The peers. -/
  reported_eq : reported outcome.events = offer.peers.map UdptPeer.discovered
  /-- The connection is made once. -/
  connects_eq : connects outcome.events = if t.sockFd = -1 then 1 else 0
  /-- A connect request is answered. -/
  connected : ∀ req reply, .connect req reply ∈ outcome.events →
    reply = some (connectPacket ⟨0, req.transactionId, server.connectionId⟩)
  /-- The announces are answered. -/
  announced : ∀ req reply, .announce req reply ∈ outcome.events →
    req.connectionId = server.connectionId ∧ reply ≠ none

variable {server : Server} {t : TrackerT} {env : Env}

/-- An announce over a connection. -/
theorem announce_comes (hr : Ready server t) (hsock : t.sockFd ≠ -1) (hf : offer.Fits)
    (hserved : ∀ req reply, .announce req reply ∈ (announce t env).events →
      ∃ packet, sendAnnounceRequest req = some packet ∧
        reply = server.answerAnnounce t.infoHash offer packet) :
    Comes server offer t (announce t env) := by
  have hid := hr.connection hsock
  obtain ⟨packet, hsend, hreply⟩ :=
    hserved (announceReq t env) env.announceReply (mem_announce_iff.mpr ⟨rfl, rfl⟩)
  rw [server.answerAnnounce_eq hid hr.infoHash env hsend] at hreply
  have hpeers : (receiveAnnounceResponse env.bufferJunk env.announceJunk env.announceReply).2.peers =
      .chain offer.peers := by rw [hreply, receive_announcePacket hf]
  obtain ⟨hcode, hreported⟩ := reported_announce hr.findFn hpeers
  have htracker := announce_tracker t env
  refine ⟨hcode, htracker.symm ▸ hr, htracker.symm ▸ hsock, hreported, ?_,
    fun req reply hmem => (announce_under t env _ hmem).elim, ?_⟩
  · rw [if_neg hsock, connects, List.countP_eq_zero]
    intro e he
    have hunder := announce_under t env e he
    cases e with
    | connect req reply => exact hunder.elim
    | _ => simp
  · intro req reply hmem
    obtain ⟨rfl, rfl⟩ := mem_announce_iff.mp hmem
    exact ⟨hid, by simp [hreply]⟩

/-- A connection that is made, and the announce over it. -/
theorem connect_of_response {action : UInt32} {id : UInt64}
    (hresp : (receiveConnectResponse env.connectJunk env.connectReply).2 = ⟨action, env.connectRand, id⟩) :
    connect t env = { announce { t with connectionId := id } env with
      events := .connect (connectReq env) env.connectReply ::
        (announce { t with connectionId := id } env).events } := by
  rw [connect, hresp, if_neg (by simp [connectReq])]

/-- **A served call**, with a connection or without one. -/
theorem call_comes (hr : Ready server t) (hf : offer.Fits) (hserved : Served server offer t env) :
    Comes server offer t (trackerAnnounceUdp t env) := by
  by_cases ht : t.sockFd = -1
  · have hcall := trackerAnnounceUdp_of_connects ht hserved.socket
    have hfd := createUdpSocket_fd hserved.socket
    generalize (createUdpSocket env (-1)).2 = fd at hcall hfd
    have hmem : .connect (connectReq env) env.connectReply ∈ (trackerAnnounceUdp t env).events := by
      obtain ⟨-, rest, hevents, -⟩ := connect_spec { t with sockFd := fd } env
      rw [hcall, hevents]
      exact List.mem_cons_self
    obtain ⟨junk, packet, hjunk, hsend, hreply⟩ := hserved.connect _ _ hmem
    rw [server.answerConnect_eq env hjunk hsend] at hreply
    have hresp : (receiveConnectResponse env.connectJunk env.connectReply).2 =
        ⟨0, env.connectRand, server.connectionId⟩ := by
      rw [hreply, receiveConnectResponse_connectPacket]
    have hready : Ready server { t with sockFd := fd, connectionId := server.connectionId } :=
      ⟨fun _ => rfl, hr.infoHash, hr.findFn⟩
    rw [connect_of_response hresp] at hcall
    have hannounced := hserved.announce
    rw [hcall] at hannounced ⊢
    have hcomes := announce_comes hready hfd hf fun req reply hmem =>
      hannounced req reply (List.mem_cons_of_mem _ hmem)
    refine ⟨hcomes.code, hcomes.ready, hcomes.socket, hcomes.reported_eq, ?_, ?_, ?_⟩
    · have hnone := hcomes.connects_eq
      rw [if_neg hfd] at hnone
      rw [if_pos ht, connects, List.countP_cons, ← connects, hnone]
      rfl
    · intro req reply hmem
      rcases List.mem_cons.mp hmem with heq | hmem
      · obtain ⟨rfl, rfl⟩ := Event.connect.inj heq
        exact hreply
      · exact hcomes.connected req reply hmem
    · intro req reply hmem
      rcases List.mem_cons.mp hmem with heq | hmem
      · cases heq
      · exact hcomes.announced req reply hmem
  · have hcall : trackerAnnounceUdp t env = announce t env := trackerAnnounceUdp_of_connected ht
    have hannounced := hserved.announce
    rw [hcall] at hannounced ⊢
    exact announce_comes hr ht hf hannounced

/-! ## Runs -/

/-- What a run comes to. -/
structure RunComes (server : Server) (t : TrackerT) (rounds : List (Env × Offer)) : Prop where
  /-- Every call is made, and succeeds. -/
  codes : (calls t (rounds.map Prod.fst)).map (fun c => (trackerAnnounceUdp c.1 c.2).code) =
    rounds.map fun _ => some 0
  /-- The peers offered are reported, in order. -/
  reported_eq : reported (history t (rounds.map Prod.fst)) =
    rounds.flatMap fun r => r.2.peers.map UdptPeer.discovered
  /-- There is one connection. -/
  connects_eq : connects (history t (rounds.map Prod.fst)) =
    if t.sockFd = -1 ∧ rounds ≠ [] then 1 else 0
  /-- Its connect request is answered. -/
  connected : ∀ req reply, .connect req reply ∈ history t (rounds.map Prod.fst) →
    reply = some (connectPacket ⟨0, req.transactionId, server.connectionId⟩)
  /-- Every announce is answered, under its connection id. -/
  announced : ∀ req reply, .announce req reply ∈ history t (rounds.map Prod.fst) →
    req.connectionId = server.connectionId ∧ reply ≠ none

/-- **A run of served calls**, by induction on the calls. -/
theorem run_comes (hr : Ready server t) {rounds : List (Env × Offer)}
    (hf : ∀ r ∈ rounds, r.2.Fits) (hserved : ServedAll server t rounds) :
    RunComes server t rounds := by
  induction rounds generalizing t with
  | nil =>
      exact ⟨rfl, rfl, by simp [history, calls, connects], by simp [history, calls],
        by simp [history, calls]⟩
  | cons round rounds ih =>
      obtain ⟨env, offer⟩ := round
      obtain ⟨hfirst, hrest⟩ := hserved
      obtain ⟨hfit, hfits⟩ := List.forall_mem_cons.mp hf
      have hcall := call_comes hr hfit hfirst
      have hlater := ih hcall.ready hfits hrest
      have hhistory : history t (env :: rounds.map Prod.fst) = (trackerAnnounceUdp t env).events ++
          history (trackerAnnounceUdp t env).tracker (rounds.map Prod.fst) := by
        rw [history, calls, hcall.code]
        rfl
      refine ⟨?_, ?_, ?_, ?_, ?_⟩
      · rw [List.map_cons, calls, hcall.code]
        simp only [Option.isSome_some, if_true, List.map_cons, hcall.code, hlater.codes]
      · rw [List.map_cons, hhistory, reported, List.filterMap_append, ← reported, ← reported,
          hcall.reported_eq, hlater.reported_eq, List.flatMap_cons]
      · rw [List.map_cons, hhistory, connects, List.countP_append, ← connects, ← connects,
          hcall.connects_eq, hlater.connects_eq]
        simp [hcall.socket]
      · intro req reply hmem
        rw [List.map_cons, hhistory, List.mem_append] at hmem
        rcases hmem with hmem | hmem
        · exact hcall.connected req reply hmem
        · exact hlater.connected req reply hmem
      · intro req reply hmem
        rw [List.map_cons, hhistory, List.mem_append] at hmem
        rcases hmem with hmem | hmem
        · exact hcall.announced req reply hmem
        · exact hlater.announced req reply hmem

/-- **The client and a tracker understand each other.** Against a tracker that answers the packets it
understands, every call of a run after `tracker_start` succeeds, the connection is made once and granted,
every announce goes out under the connection id of the tracker and is answered, and the peers offered are
reported in order. -/
theorem exchange (server : Server) (t : TrackerT) (hhash : t.infoHash.length = 20)
    (hfind : t.findFn = true) (rounds : List (Env × Offer)) (hf : ∀ r ∈ rounds, r.2.Fits)
    (hserved : ServedAll server (trackerStart t) rounds) :
    RunComes server (trackerStart t) rounds :=
  run_comes (t := trackerStart t) ⟨fun h => absurd rfl h, hhash, hfind⟩ hf hserved

/-- What a call meets if it is answered. -/
def answering (server : Server) (offer : Offer) : Env := { silent with
  connectReply := some (connectPacket ⟨0, silent.connectRand, server.connectionId⟩)
  announceReply := some (announcePacket silent.announceRand offer) }

/-- It gets the answers of the tracker. -/
theorem served_answering (hr : Ready server t) (offer : Offer) :
    Served server offer t (answering server offer) := by
  have hsocket : ¬ SocketFails (answering server offer) := fun h => h rfl
  have hannounce {t' : TrackerT} (hid : t'.connectionId = server.connectionId)
      (hhash : t'.infoHash = t.infoHash) : ∃ packet,
      sendAnnounceRequest (announceReq t' (answering server offer)) = some packet ∧
        (answering server offer).announceReply = server.answerAnnounce t.infoHash offer packet := by
    have hlen : t'.infoHash.length = 20 := hhash ▸ hr.infoHash
    have hsized : (announceReq t' (answering server offer)).Sized := ⟨hlen, rfl⟩
    have hsend := sendAnnounceRequest_eq hsized
    refine ⟨_, hsend, ?_⟩
    rw [← hhash, server.answerAnnounce_eq hid hlen _ hsend]
    rfl
  by_cases ht : t.sockFd = -1
  · have hcall := trackerAnnounceUdp_of_connects ht hsocket
    have hresp := congrArg Prod.snd (receiveConnectResponse_connectPacket
      (answering server offer).connectJunk ⟨0, silent.connectRand, server.connectionId⟩)
    rw [connect_of_response hresp] at hcall
    refine ⟨hsocket, fun req reply hmem => ?_, fun req reply hmem => ?_⟩
    all_goals
      rw [hcall] at hmem
      rcases List.mem_cons.mp hmem with heq | hmem
    · obtain ⟨rfl, rfl⟩ := Event.connect.inj heq
      have hjunk : (List.replicate 16 (0 : UInt8)).length = 16 := rfl
      have hsend := sendConnectRequest_eq hjunk (connectReq (answering server offer))
      exact ⟨_, _, hjunk, hsend, (server.answerConnect_eq _ hjunk hsend).symm⟩
    · exact (announce_under _ _ _ hmem).elim
    · cases heq
    · obtain ⟨rfl, rfl⟩ := mem_announce_iff.mp hmem
      exact hannounce rfl rfl
  · have hcall : trackerAnnounceUdp t (answering server offer) = announce t (answering server offer) :=
      trackerAnnounceUdp_of_connected ht
    refine ⟨hsocket, fun req reply hmem => ?_, fun req reply hmem => ?_⟩
    all_goals rw [hcall] at hmem
    · exact (announce_under _ _ _ hmem).elim
    · obtain ⟨rfl, rfl⟩ := mem_announce_iff.mp hmem
      exact hannounce (hr.connection ht) rfl

/-- A tracker. -/
def someServer : Server := ⟨0x0123456789abcdef⟩

/-- It offers two peers. -/
def someOffer : Offer := ⟨1800, 3, 5, [⟨0x7f000001, 6881⟩, ⟨0xc0a80001, 51413⟩]⟩

/-- And another one later. -/
def laterOffer : Offer := ⟨1800, 2, 6, [⟨0x7f000002, 6882⟩]⟩

/-- Two calls that are answered. -/
def someRounds : List (Env × Offer) :=
  [(answering someServer someOffer, someOffer), (answering someServer laterOffer, laterOffer)]

/-- A client of it. -/
def someTracker : TrackerT := ⟨0, 0, List.replicate 20 1, true⟩

/-- The offers fit. -/
theorem someRounds_fit : ∀ r ∈ someRounds, r.2.Fits := by
  simp only [someRounds, List.forall_mem_cons]
  refine ⟨⟨?_, ?_, ?_⟩, ⟨?_, ?_, ?_⟩, by simp⟩
  all_goals simp [someOffer, laterOffer]

/-- The second call is answered over the connection of the first. -/
theorem served_someRounds : ServedAll someServer (trackerStart someTracker) someRounds := by
  have hready : Ready someServer (trackerStart someTracker) := ⟨fun h => absurd rfl h, rfl, rfl⟩
  have hfirst := served_answering hready someOffer
  have hcomes := call_comes hready (someRounds_fit _ List.mem_cons_self) hfirst
  exact ⟨hfirst, served_answering hcomes.ready laterOffer, trivial⟩

/-- The three peers are reported. -/
theorem exchange_example : RunComes someServer (trackerStart someTracker) someRounds :=
  exchange someServer someTracker rfl rfl someRounds someRounds_fit served_someRounds

/-! ## The list of peers -/

open Flood.Client

/-- Reports of which none is mistaken are all noted. -/
theorem foldl_noted_eq_self {reports : List (DiscoveredPeer × Block)} (hcount : reports.length < 2 ^ 32)
    (happart : ∀ q ∈ reports, ∀ r ∈ reports, q.2.addr.toUInt32 ≠ r.1.ip) :
    reports.foldl noted [] = reports := by
  induction reports using List.reverseRecOn with
  | nil => rfl
  | append_singleton reports r ih =>
      rw [List.length_append, List.length_singleton] at hcount
      have hbefore := ih (by omega) fun q hq r' hr' =>
        happart q (List.mem_append_left _ hq) r' (List.mem_append_left _ hr')
      have hok : ¬ Mistaken reports r.1.ip := by
        rintro ⟨q, hq, heq⟩
        exact happart q (List.mem_append_left _ hq) r (by simp) heq
      rw [List.foldl_append, hbefore, List.foldl_cons, List.foldl_nil, noted, if_neg hok]
      split_ifs with hzero
      · rw [wrap32_eq_zero_iff] at hzero
        rw [List.length_eq_zero_iff.mp (by omega : reports.length = 0)]
        rfl
      · rfl

/-- **What a tracker offers is what the client lists.** The peers that a run against an answering tracker
reports, fewer than 2^32, are handed to `client_find_peer`. As long as no pointer to a peer looks like an
address offered, the list of the client then has the peers of all the offers, in order: one offered twice is
listed twice. -/
theorem exchange_fills_list (server : Server) (t : TrackerT) (hhash : t.infoHash.length = 20)
    (hfind : t.findFn = true) (rounds : List (Env × Offer)) (hf : ∀ r ∈ rounds, r.2.Fits)
    (hserved : ServedAll server (trackerStart t) rounds) (blocks : List Block)
    (hblocks : blocks.length = (rounds.flatMap fun r => r.2.peers).length)
    (hcount : blocks.length < 2 ^ 32) (hnodup : (blocks.map Block.addr).Nodup)
    (happart : ∀ b ∈ blocks, ∀ r ∈ rounds, ∀ p ∈ r.2.peers, b.addr.toUInt32 ≠ p.ip) :
    ∃ c, findAll clientInit
        ((reported (history (trackerStart t) (rounds.map Prod.fst))).zip blocks) = some c ∧
      entries c = some (((rounds.flatMap fun r => r.2.peers).zip blocks).map fun q =>
        Peer.newPeer q.1.ip q.1.port q.2.status) := by
  have hrun : RunComes server (trackerStart t) rounds :=
    run_comes (t := trackerStart t) ⟨fun h => absurd rfl h, hhash, hfind⟩ hf hserved
  have hreported : reported (history (trackerStart t) (rounds.map Prod.fst)) =
      (rounds.flatMap fun r => r.2.peers).map UdptPeer.discovered := by
    rw [hrun.reported_eq, List.map_flatMap]
  rw [hreported, List.zip_map_left]
  have haddrs : (((rounds.flatMap fun r => r.2.peers).zip blocks).map
      (Prod.map UdptPeer.discovered id)).map (fun q => q.2.addr) = blocks.map Block.addr := by
    rw [List.map_map]
    have hsnd := List.map_snd_zip hblocks.le
    rw [← congrArg (List.map Block.addr) hsnd, List.map_map]
    rfl
  obtain ⟨c, hfound, hholds⟩ := findAll_spec (fresh_of_nodup (haddrs ▸ hnodup))
  refine ⟨c, hfound, ?_⟩
  rw [hholds.entries_eq, foldl_noted_eq_self, List.map_map]
  · rfl
  · rw [List.length_map, List.length_zip]
    omega
  · intro q hq r hr
    obtain ⟨q', hq', rfl⟩ := List.mem_map.mp hq
    obtain ⟨r', hr', rfl⟩ := List.mem_map.mp hr
    obtain ⟨round, hround, hp⟩ := List.mem_flatMap.mp (List.of_mem_zip hr').1
    exact happart _ (List.of_mem_zip hq').2 round hround _ hp

/-- What `malloc` returns for three peers. -/
def threeBlocks : List Block := [⟨0x1000, .new⟩, ⟨0x2000, .new⟩, ⟨0x3000, .new⟩]

/-- The peers of both offers are listed. -/
theorem exchange_fills_list_example :
    ∃ c, findAll clientInit ((reported (history (trackerStart someTracker)
        (someRounds.map Prod.fst))).zip threeBlocks) = some c ∧
      entries c = some (((someRounds.flatMap fun r => r.2.peers).zip threeBlocks).map fun q =>
          Peer.newPeer q.1.ip q.1.port q.2.status) := by
  refine exchange_fills_list someServer someTracker rfl rfl someRounds someRounds_fit served_someRounds
    threeBlocks rfl (by decide) (by decide) ?_
  simp [someRounds, someOffer, laterOffer, threeBlocks]

end Flood.Tracker
