import Flood.Lib.Word

/-!
# `tracker_announce_udp` and the part of `udp_protocol.c` it uses

One call of `tracker_announce_udp`: a connect exchange if there is no socket yet, and an announce
exchange.

* `Env` — what the call meets: the outcome of the socket creation, the random numbers, the datagrams
  received, and what uninitialised variables hold.
* `receiveConnectResponse`, `receiveAnnounceResponse` — decode a datagram; a short one leaves the
  struct as it was.
* `trackerAnnounceUdp` — the call: the code returned, the tracker afterwards, and the events, in
  order. The code is `none` where the call follows a wild pointer; nothing is said of what comes
  after.
* `calls`, `trackerAfter`, `history` — a run, which ends after a call that follows a wild pointer.

Packets are kept as the structs they are built from.
-/

namespace Flood.Tracker

open Flood.Lib

/-! ## Datagrams -/

/-- What `recvfrom` is given to return: a datagram, or a failure. -/
abbrev Reply := Option (List UInt8)

/-- What `recvfrom` writes to a buffer of `n` bytes: the rest of a longer datagram is lost. -/
def received (n : Nat) (reply : Reply) : List UInt8 := (reply.getD []).take n

/-- What `recvfrom` with a buffer of `n` bytes returns. -/
def recvSize (n : Nat) (reply : Reply) : Int :=
  if reply.isSome then (received n reply).length else -1

/-- `ntohl(*((uint32_t*) (buffer + i)))` -/
def netWord (buffer : List UInt8) (i : Nat) : UInt32 := bswap32 (leWord ((buffer.drop i).take 4))

/-- `ntohs(*((uint16_t*) (buffer + i)))` -/
def netShort (buffer : List UInt8) (i : Nat) : UInt32 :=
  ofBytes (buffer.getD (i + 1) 0) (buffer.getD i 0) 0 0

/-- `ntohll(*(uint64_t*) (buffer + i))` -/
def netWord64 (buffer : List UInt8) (i : Nat) : UInt64 :=
  bswap64 (leWord64 ((buffer.drop i).take 8))

/-! ## Connecting -/

/-- The request to connect.
Source: `udp_protocol.h`, `udpt_connect_req` -/
structure ConnectReq where
  /-- A magic number. -/
  connectionId : UInt64
  /-- What is asked for. -/
  action : UInt32
  /-- The number the response is recognised by. -/
  transactionId : UInt32
  deriving DecidableEq

/-- The response.
Source: `udp_protocol.h`, `udpt_connect_resp` -/
structure ConnectResp where
  /-- What was asked for. -/
  action : UInt32
  /-- The number of the request. -/
  transactionId : UInt32
  /-- The connection. -/
  connectionId : UInt64
  deriving DecidableEq

/-- Decode a connect response into `res`: the size received, and the struct.
Source: `udp_protocol.c`, `receive_connect_response` -/
def receiveConnectResponse (res : ConnectResp) (reply : Reply) : Int × ConnectResp :=
  if recvSize 16 reply < 16 then (recvSize 16 reply, res)
  else (recvSize 16 reply,
    ⟨netWord (received 16 reply) 0, netWord (received 16 reply) 4,
      netWord64 (received 16 reply) 8⟩)

/-! ## Announcing -/

/-- The request to announce. A signed field is kept as its bits.
Source: `udp_protocol.h`, `udpt_announce_req` -/
structure AnnounceReq where
  /-- The connection. -/
  connectionId : UInt64
  /-- What is asked for. -/
  action : UInt32
  /-- The number the response is recognised by. -/
  transactionId : UInt32
  /-- The torrent. -/
  infoHash : List UInt8
  /-- The client. -/
  peerId : List UInt8
  /-- Bytes downloaded. -/
  downloaded : UInt64 := 0
  /-- Bytes left. -/
  left : UInt64 := 0
  /-- Bytes uploaded. -/
  uploaded : UInt64 := 0
  /-- Why it is sent. -/
  event : UInt32
  /-- The client's address, `0` for the sender's. -/
  ip : UInt32 := 0
  /-- A key. -/
  key : UInt32 := 0
  /-- How many peers are wanted. -/
  numWant : UInt32
  /-- The client's port. -/
  port : UInt16 := 0
  /-- Extensions. -/
  extensions : UInt16
  deriving DecidableEq

/-- A peer of a response.
Source: `udp_protocol.h`, `udpt_peer` -/
structure UdptPeer where
  /-- The address. -/
  ip : UInt32
  /-- The port, 16 bits. -/
  port : UInt32
  deriving DecidableEq

/-- A pointer to a list of peers. -/
inductive PeerList where
  /-- It leads through these peers to `NULL`. -/
  | chain (peers : List UdptPeer)
  /-- It leads anywhere. -/
  | wild
  deriving DecidableEq

/-- The response.
Source: `udp_protocol.h`, `udpt_announce_resp` -/
structure AnnounceResp where
  /-- What was asked for. -/
  action : UInt32
  /-- The number of the request. -/
  transactionId : UInt32
  /-- When to announce again. -/
  interval : UInt32
  /-- How many leech. -/
  leechers : UInt32
  /-- How many seed. -/
  seeders : UInt32
  /-- How many peers follow. -/
  peerCount : Int
  /-- The first of them. -/
  peers : PeerList
  deriving DecidableEq

/-- `for (int i = 20; i < size; i += 6)`, from `i` on: the peers read. -/
def peerLoop (buffer : List UInt8) (size : Nat) : Nat → Nat → List UdptPeer
  | 0, _ => []
  | fuel + 1, i =>
      if i < size then ⟨netWord buffer i, netShort buffer (i + 4)⟩ ::
        peerLoop buffer size fuel (i + 6)
      else []

/-- The peers of a datagram in a buffer whose other bytes are `junk`. The loop takes no more turns
than there are bytes. -/
def readPeers (junk : List UInt8) (reply : Reply) : List UdptPeer :=
  peerLoop (received 1022 reply ++ junk) (received 1022 reply).length
    (received 1022 reply).length 20

/-- Decode an announce response into `res`: the size received, and the struct. `res->peers` is
written by the first turn of the loop only.
Source: `udp_protocol.c`, `receive_announce_response` -/
def receiveAnnounceResponse (junk : List UInt8) (res : AnnounceResp) (reply : Reply) :
    Int × AnnounceResp :=
  if recvSize 1022 reply < 20 then (recvSize 1022 reply, res)
  else (recvSize 1022 reply, {
    action := netWord (received 1022 reply) 0
    transactionId := netWord (received 1022 reply) 4
    interval := netWord (received 1022 reply) 8
    leechers := netWord (received 1022 reply) 12
    seeders := netWord (received 1022 reply) 16
    peerCount := (recvSize 1022 reply - 20) / 6
    peers := if readPeers junk reply = [] then res.peers else .chain (readPeers junk reply) })

/-! ## The tracker -/

/-- A tracker, as far as announcing goes.
Source: `tracker.h`, `tracker_t` -/
structure TrackerT where
  /-- The socket, `-1` if there is none. -/
  sockFd : Int
  /-- The connection. -/
  connectionId : UInt64
  /-- `torrent->info_hash`. -/
  infoHash : List UInt8
  /-- Whether there is a `find_fn`. -/
  findFn : Bool
  deriving DecidableEq

/-- A peer as it is reported to `find_fn`: the 32 bits of the two `int`s.
Source: `tracker.h`, `discovered_peer_t` -/
structure DiscoveredPeer where
  /-- The address. -/
  ip : UInt32
  /-- The port. -/
  port : UInt32
  deriving DecidableEq

/-- What one call meets. -/
structure Env where
  /-- What `parse_uri` returns. -/
  parsed : Int
  /-- What `getaddrinfo` returns. -/
  resolved : Int
  /-- What `socket` returns. -/
  socket : Int
  /-- The number `rand` gives for the connect request. -/
  connectRand : UInt32
  /-- The datagram that answers it. -/
  connectReply : Reply
  /-- What `c_resp` holds at first. -/
  connectJunk : ConnectResp
  /-- The number `rand` gives for the announce request. -/
  announceRand : UInt32
  /-- The datagram that answers it. -/
  announceReply : Reply
  /-- What `a_resp` holds at first. -/
  announceJunk : AnnounceResp
  /-- What the receive buffer holds behind the datagram. -/
  bufferJunk : List UInt8

/-- What happens in a call that others can see. -/
inductive Event where
  /-- A connect request was sent, and this is what was received for it. -/
  | connect (req : ConnectReq) (reply : Reply)
  /-- An announce request was sent, and this is what was received for it. -/
  | announce (req : AnnounceReq) (reply : Reply)
  /-- `find_fn` was called. -/
  | found (peer : DiscoveredPeer)
  deriving DecidableEq

/-- How a call ends. -/
structure Outcome where
  /-- The code returned; `none` if a wild pointer is followed. -/
  code : Option Int
  /-- The tracker. -/
  tracker : TrackerT
  /-- The events, in order. -/
  events : List Event
  deriving DecidableEq

/-- Create a socket: the code, and `*fd`.
Source: `net.c`, `create_udp_socket` -/
def createUdpSocket (env : Env) (fd : Int) : Int × Int :=
  if env.parsed ≠ 0 then (env.parsed, fd)
  else if env.resolved ≠ 0 then (env.resolved, fd)
  else if env.socket = -1 then (-1, fd)
  else (0, env.socket)

/-- The announce request of `tracker_announce_udp`. -/
def announceReq (t : TrackerT) (env : Env) : AnnounceReq where
  connectionId := t.connectionId
  action := 1
  transactionId := env.announceRand
  infoHash := t.infoHash
  -- "CUSTOMCLIENT12345678"
  peerId := [67, 85, 83, 84, 79, 77, 67, 76, 73, 69, 78, 84, 49, 50, 51, 52, 53, 54, 55, 56]
  event := 2
  numWant := 4294967295
  extensions := 0

/-- `tracker_announce_udp` from the announce request on. The size of the response, its action and its
transaction id are not looked at. -/
def announce (t : TrackerT) (env : Env) : Outcome :=
  match (receiveAnnounceResponse env.bufferJunk env.announceJunk env.announceReply).2.peers with
  | .chain peers => ⟨some 0, t, .announce (announceReq t env) env.announceReply ::
      if t.findFn then peers.map fun peer => .found ⟨peer.ip, peer.port⟩ else []⟩
  | .wild => ⟨none, t, [.announce (announceReq t env) env.announceReply]⟩

/-- The connect request of `tracker_announce_udp`. -/
def connectReq (env : Env) : ConnectReq := ⟨0x41727101980, 0, env.connectRand⟩

/-- The connect exchange of `tracker_announce_udp`, and what follows it. -/
def connect (t : TrackerT) (env : Env) : Outcome :=
  if (receiveConnectResponse env.connectJunk env.connectReply).2.transactionId ≠
      (connectReq env).transactionId then
    ⟨some (-1), t, [.connect (connectReq env) env.connectReply]⟩
  else
    { announce { t with
        connectionId :=
          (receiveConnectResponse env.connectJunk env.connectReply).2.connectionId } env with
      events := .connect (connectReq env) env.connectReply :: (announce { t with
        connectionId :=
          (receiveConnectResponse env.connectJunk env.connectReply).2.connectionId } env).events }

/-- One call.
Source: `tracker.c`, `tracker_announce_udp` -/
def trackerAnnounceUdp (t : TrackerT) (env : Env) : Outcome :=
  if t.sockFd = -1 then
    if (createUdpSocket env t.sockFd).1 ≠ 0 then ⟨some (createUdpSocket env t.sockFd).1, t, []⟩
    else connect { t with sockFd := (createUdpSocket env t.sockFd).2 } env
  else announce t env

/-! ## Runs -/

/-- What `tracker_start` does to the socket.
Source: `tracker.c`, `tracker_start` -/
def trackerStart (t : TrackerT) : TrackerT := { t with sockFd := -1 }

/-- The calls of a run, each with the tracker it starts from. -/
def calls (t : TrackerT) : List Env → List (TrackerT × Env)
  | [] => []
  | env :: envs => (t, env) ::
      if (trackerAnnounceUdp t env).code.isSome then calls (trackerAnnounceUdp t env).tracker envs
      else []

/-- The tracker after a run. -/
def trackerAfter (t : TrackerT) : List Env → TrackerT
  | [] => t
  | env :: envs =>
      if (trackerAnnounceUdp t env).code.isSome then
        trackerAfter (trackerAnnounceUdp t env).tracker envs
      else (trackerAnnounceUdp t env).tracker

/-- The events of a run, in order. -/
def history (t : TrackerT) (envs : List Env) : List Event :=
  (calls t envs).flatMap fun c => (trackerAnnounceUdp c.1 c.2).events

end Flood.Tracker
