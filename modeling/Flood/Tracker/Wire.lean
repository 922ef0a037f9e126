import Flood.Lib.Layout
import Flood.Tracker.Report

/-!
# Packets

The packet that an announce request is sent as, and the packet that a connect response is read from.

* `sendAnnounceRequest` — the packet, by stores into a buffer of 100 bytes.
* `WireField` — the fields of a packet: where each is, and what bytes it should have there.
* `sendAnnounceRequest_eq` — the stores leave the fields, one behind the other.
* `announce_lossless` — every field is there, the fields fill the packet and do not overlap, different
  requests give different packets, and the connection id of a response is sent as it was received.
-/

namespace Flood.Tracker

open Flood.Lib

variable {t : TrackerT} {env : Env} {envs : List Env} {req req' : AnnounceReq} {reply : Reply}

/-- The arrays of a request have 20 elements each. -/
structure AnnounceReq.Sized (req : AnnounceReq) : Prop where
  /-- `int8_t info_hash[20]` -/
  infoHash : req.infoHash.length = 20
  /-- `int8_t peer_id[20]` -/
  peerId : req.peerId.length = 20

/-- A 64-bit field in network order, on a little-endian host. The shift of a signed value keeps the
sign.
Source: `net.h`, `htonll` -/
def htonll (x : Int64) : UInt64 :=
  ((bswap32 (x &&& 0xFFFFFFFF).toUInt64.toUInt32).toUInt64 <<< 32) |||
    (bswap32 (x >>> 32).toUInt64.toUInt32).toUInt64

/-- The stores of `send_announce_request`, in order. -/
def announceStores (req : AnnounceReq) : List (Nat × List UInt8) := [
  (0, leBytes64 (htonll req.connectionId.toInt64)),
  (8, leBytes (bswap32 req.action)),
  (12, leBytes (bswap32 req.transactionId)),
  (16, req.infoHash),
  (36, req.peerId),
  (56, leBytes64 (htonll req.downloaded.toInt64)),
  (64, leBytes64 (htonll req.left.toInt64)),
  (72, leBytes64 (htonll req.uploaded.toInt64)),
  (80, leBytes (bswap32 req.event)),
  (84, leBytes (bswap32 req.ip)),
  (88, leBytes (bswap32 req.key)),
  (92, leBytes (bswap32 req.numWant)),
  (96, leBytes16 (bswap16 req.port)),
  (98, leBytes16 (bswap16 req.extensions))]

/-- The packet that is sent; `none` if a store does not fit the buffer.
Source: `udp_protocol.c`, `send_announce_request` -/
def sendAnnounceRequest (req : AnnounceReq) : Option (List UInt8) :=
  storeAll (announceStores req) (List.replicate 100 0)

/-! ## Fields -/

/-- The fields of a packet, in order. -/
inductive WireField where
  | connectionId | action | transactionId | infoHash | peerId | downloaded | left | uploaded | event
  | ip | key | numWant | port | extensions
  deriving DecidableEq

namespace WireField

/-- Where a field begins. -/
def offset : WireField → Nat
  | connectionId => 0
  | action => 8
  | transactionId => 12
  | infoHash => 16
  | peerId => 36
  | downloaded => 56
  | left => 64
  | uploaded => 72
  | event => 80
  | ip => 84
  | key => 88
  | numWant => 92
  | port => 96
  | extensions => 98

/-- How many bytes it has. -/
def width : WireField → Nat
  | connectionId | downloaded | left | uploaded => 8
  | action | transactionId | event | ip | key | numWant => 4
  | infoHash | peerId => 20
  | port | extensions => 2

/-- What it should hold: a number most significant byte first, an array as it is. -/
def bytes (req : AnnounceReq) : WireField → List UInt8
  | connectionId => beBytes 8 req.connectionId.toNat
  | action => beBytes 4 req.action.toNat
  | transactionId => beBytes 4 req.transactionId.toNat
  | infoHash => req.infoHash
  | peerId => req.peerId
  | downloaded => beBytes 8 req.downloaded.toNat
  | left => beBytes 8 req.left.toNat
  | uploaded => beBytes 8 req.uploaded.toNat
  | event => beBytes 4 req.event.toNat
  | ip => beBytes 4 req.ip.toNat
  | key => beBytes 4 req.key.toNat
  | numWant => beBytes 4 req.numWant.toNat
  | port => beBytes 2 req.port.toNat
  | extensions => beBytes 2 req.extensions.toNat

/-- All of them, in the order in which they are stored. -/
def all : List WireField :=
  [connectionId, action, transactionId, infoHash, peerId, downloaded, left, uploaded, event, ip, key,
    numWant, port, extensions]

/-- Every field is among them. -/
theorem mem_all (f : WireField) : f ∈ all := by
  cases f <;> decide

/-- Two fields have no byte in common. -/
theorem eq_of_common {f g : WireField} {n : Nat} (hf : f.offset ≤ n) (hf' : n < f.offset + f.width)
    (hg : g.offset ≤ n) (hg' : n < g.offset + g.width) : f = g := by
  have hapart : ∀ f ∈ all, ∀ g ∈ all, f ≠ g →
      f.offset + f.width ≤ g.offset ∨ g.offset + g.width ≤ f.offset := by decide
  by_contra hne
  rcases hapart f f.mem_all g g.mem_all hne with h | h
  · omega
  · omega

end WireField

open WireField

/-- A field is as wide as its bytes. -/
theorem length_bytes (h : req.Sized) (f : WireField) : (f.bytes req).length = f.width := by
  cases f with
  | infoHash => exact h.infoHash
  | peerId => exact h.peerId
  | _ => exact length_beBytes _ _

/-! ## Swapping signed values -/

/-- The half that a shift brings down has nothing of the sign. -/
theorem toUInt32_shiftRight (x : UInt64) :
    (x.toInt64 >>> 32).toUInt64.toUInt32 = (x >>> 32).toUInt32 := by
  have hhalf : (x.toBitVec.sshiftRight 32).setWidth 32 = (x.toBitVec >>> 32).setWidth 32 := by
    ext i hi
    have hin : 32 + i < 64 := by omega
    rw [BitVec.getElem_setWidth, BitVec.getElem_setWidth, BitVec.getLsbD_ushiftRight,
      BitVec.getLsbD_sshiftRight, if_pos hin, decide_eq_false (by omega), Bool.not_false,
      Bool.true_and]
  apply UInt32.toBitVec_inj.mp
  simpa using hhalf

/-- The mask leaves the low half. -/
theorem toUInt32_mask (x : UInt64) :
    (x.toInt64 &&& 0xFFFFFFFF).toUInt64.toUInt32 = x.toUInt32 := by
  have hmask : x.toBitVec.setWidth 32 &&& 4294967295#32 = x.toBitVec.setWidth 32 :=
    BitVec.and_allOnes
  apply UInt32.toBitVec_inj.mp
  simpa using hmask

/-- The macro swaps the bytes of a signed value like those of its bits. -/
theorem htonll_eq (x : UInt64) : htonll x.toInt64 = bswap64 x := by
  rw [htonll, bswap64, toUInt32_mask, toUInt32_shiftRight]

/-! ## The packet -/

/-- The stores put each field where it belongs. -/
theorem announceStores_eq (req : AnnounceReq) :
    announceStores req = all.map fun f => (f.offset, f.bytes req) := by
  simp only [announceStores, htonll_eq, leBytes64_bswap64, leBytes_bswap32, leBytes16_bswap16]
  rfl

/-- They fill the packet, one behind the other. -/
theorem announceStores_tiles (h : req.Sized) : Tiles 0 (announceStores req) 100 := by
  rw [announceStores_eq]
  simp only [all, List.map_cons, List.map_nil, Tiles, length_bytes h]
  decide

/-- **The packet is its fields, one behind the other.** -/
theorem sendAnnounceRequest_eq (h : req.Sized) :
    sendAnnounceRequest req = some (all.flatMap fun f => f.bytes req) := by
  have hstores := @storeAll_of_tiles (List.replicate 100 0) _ 0 (announceStores_tiles h)
  rw [sendAnnounceRequest, hstores, List.take_zero, List.nil_append, announceStores_eq,
    List.flatMap_map]

/-- Each field is in the packet. -/
theorem slice_packet (h : req.Sized) (f : WireField) :
    slice (all.flatMap fun f => f.bytes req) f.offset f.width = f.bytes req := by
  have hmem : (f.offset, f.bytes req) ∈ announceStores req := by
    rw [announceStores_eq]
    exact List.mem_map.mpr ⟨f, f.mem_all, rfl⟩
  have hslice : slice ([] ++ (announceStores req).flatMap Prod.snd) f.offset (f.bytes req).length =
      f.bytes req := slice_of_tiles (announceStores_tiles h) rfl hmem
  rwa [List.nil_append, announceStores_eq, List.flatMap_map, length_bytes h] at hslice

/-- The packet has 100 bytes. -/
theorem length_packet (h : req.Sized) : (all.flatMap fun f => f.bytes req).length = 100 := by
  have hend := (announceStores_tiles h).end_eq
  rwa [Nat.zero_add, announceStores_eq, List.flatMap_map] at hend

/-- Every byte is in exactly one field. -/
theorem existsUnique_field {n : Nat} (hn : n < 100) :
    ∃! f : WireField, f.offset ≤ n ∧ n < f.offset + f.width := by
  have htiles : Tiles 0 (all.map fun f => (f.offset, List.replicate f.width 0)) 100 := by
    simp only [all, List.map_cons, List.map_nil, Tiles, List.length_replicate]
    decide
  obtain ⟨s, hs, hin⟩ := covered_of_tiles htiles (Nat.zero_le n) hn
  obtain ⟨f, -, rfl⟩ := List.mem_map.mp hs
  rw [List.length_replicate] at hin
  exact ⟨f, hin, fun g hg => eq_of_common hg.1 hg.2 hin.1 hin.2⟩

/-- Requests with the same fields are the same. -/
theorem eq_of_bytes (h : ∀ f : WireField, f.bytes req = f.bytes req') : req = req' := by
  have hlong {x y : UInt64} (hxy : beBytes 8 x.toNat = beBytes 8 y.toNat) : x = y :=
    UInt64.toNat_inj.mp (eq_of_beBytes x.toNat_lt y.toNat_lt hxy)
  have hword {x y : UInt32} (hxy : beBytes 4 x.toNat = beBytes 4 y.toNat) : x = y :=
    UInt32.toNat_inj.mp (eq_of_beBytes x.toNat_lt y.toNat_lt hxy)
  have hshort {x y : UInt16} (hxy : beBytes 2 x.toNat = beBytes 2 y.toNat) : x = y :=
    UInt16.toNat_inj.mp (eq_of_beBytes x.toNat_lt y.toNat_lt hxy)
  rw [AnnounceReq.mk.injEq]
  exact ⟨hlong (h connectionId), hword (h action), hword (h transactionId), h infoHash, h peerId,
    hlong (h downloaded), hlong (h left), hlong (h uploaded), hword (h event), hword (h ip),
    hword (h key), hword (h numWant), hshort (h port), hshort (h extensions)⟩

/-- Two requests with the same packet are the same. -/
theorem eq_of_packet (h : req.Sized) (h' : req'.Sized)
    (hsame : sendAnnounceRequest req = sendAnnounceRequest req') : req = req' := by
  rw [sendAnnounceRequest_eq h, sendAnnounceRequest_eq h', Option.some.injEq] at hsame
  apply eq_of_bytes
  intro f
  rw [← slice_packet h, hsame, slice_packet h']

/-! ## The connection -/

/-- `ntohll` reads a number in network order. -/
theorem netWord64_eq (bytes : List UInt8) (i : Nat) (h : i + 8 ≤ bytes.length) :
    beBytes 8 (netWord64 bytes i).toNat = slice bytes i 8 := by
  have hlen : ((bytes.drop i).take 8).length = 8 := by
    rw [List.length_take, List.length_drop]
    omega
  rw [netWord64, ← leBytes64_bswap64, bswap64_bswap64, leBytes64_leWord64 hlen, slice]

/-- `ntohl` undoes what is done to a number for the wire. -/
theorem netWord_beBytes {bytes : List UInt8} {i : Nat} {x : UInt32}
    (h : slice bytes i 4 = beBytes 4 x.toNat) : netWord bytes i = x := by
  have hword : leBytes (bswap32 x) = (bytes.drop i).take 4 := by
    rw [leBytes_bswap32, ← h, slice]
  rw [netWord, ← hword, leWord_leBytes, bswap32_bswap32]

/-- `ntohll` undoes what is done to a number for the wire. -/
theorem netWord64_beBytes {bytes : List UInt8} {i : Nat} {x : UInt64}
    (h : slice bytes i 8 = beBytes 8 x.toNat) : netWord64 bytes i = x := by
  have hword : leBytes64 (bswap64 x) = (bytes.drop i).take 8 := by
    rw [leBytes64_bswap64, ← h, slice]
  rw [netWord64, ← hword, leWord64_leBytes64, bswap64_bswap64]

/-- The packet of a connect response. -/
def connectPacket (resp : ConnectResp) : List UInt8 :=
  beBytes 4 resp.action.toNat ++ beBytes 4 resp.transactionId.toNat ++
    beBytes 8 resp.connectionId.toNat

/-- It is read as it was written. -/
theorem receiveConnectResponse_connectPacket (res resp : ConnectResp) :
    receiveConnectResponse res (some (connectPacket resp)) = (16, resp) := by
  have hlen : (connectPacket resp).length = 16 := by
    rw [connectPacket, List.length_append, List.length_append, length_beBytes, length_beBytes,
      length_beBytes]
  have hall : received 16 (some (connectPacket resp)) = connectPacket resp :=
    List.take_of_length_le hlen.le
  have hsize : recvSize 16 (some (connectPacket resp)) = 16 := by
    rw [recvSize, hall, hlen]
    rfl
  have haction : slice (connectPacket resp) 0 4 = beBytes 4 resp.action.toNat := rfl
  have htid : slice (connectPacket resp) 4 4 = beBytes 4 resp.transactionId.toNat := rfl
  have hid : slice (connectPacket resp) 8 8 = beBytes 8 resp.connectionId.toNat := rfl
  rw [receiveConnectResponse, hsize, if_neg (lt_irrefl _), hall, netWord_beBytes haction,
    netWord_beBytes htid, netWord64_beBytes hid]

/-- The announce requests of a call have arrays of the right size, and the torrent stays. -/
theorem sized_of_call (h : t.infoHash.length = 20) :
    (∀ req reply, .announce req reply ∈ (trackerAnnounceUdp t env).events → req.Sized) ∧
      (trackerAnnounceUdp t env).tracker.infoHash = t.infoHash := by
  have hannounce (t' : TrackerT) (ht' : t'.infoHash = t.infoHash) :
      ∀ req reply, .announce req reply ∈ (announce t' env).events → req.Sized := by
    intro req reply hmem
    obtain ⟨rfl, -⟩ := mem_announce_iff.mp hmem
    exact ⟨(congrArg List.length ht').trans h, rfl⟩
  by_cases ht : t.sockFd = -1
  · by_cases hsock : SocketFails env
    · rw [trackerAnnounceUdp_of_fails ht hsock]
      exact ⟨fun req reply hmem => absurd hmem List.not_mem_nil, rfl⟩
    · rw [trackerAnnounceUdp_of_connects ht hsock, connect]
      split_ifs
      · exact ⟨fun req reply hmem => by simp at hmem, rfl⟩
      · constructor
        · intro req reply hmem
          rcases List.mem_cons.mp hmem with heq | hmem
          · cases heq
          · refine hannounce _ ?_ req reply hmem
            rfl
        · rw [announce_tracker]
  · rw [trackerAnnounceUdp_of_connected ht, announce_tracker]
    exact ⟨hannounce t rfl, rfl⟩

/-- So have those of a run. -/
theorem sized_of_history (h : t.infoHash.length = 20)
    (hmem : .announce req reply ∈ history t envs) : req.Sized := by
  induction envs generalizing t with
  | nil => exact absurd hmem List.not_mem_nil
  | cons env envs ih =>
      obtain ⟨hcall, hkeep⟩ := @sized_of_call t env h
      rw [history, calls, List.flatMap_cons, List.mem_append] at hmem
      rcases hmem with hmem | hmem
      · exact hcall req reply hmem
      · split_ifs at hmem
        · exact ih (hkeep.symm ▸ h) hmem
        · exact absurd hmem List.not_mem_nil

/-- The connection id of a response goes out with every announce request that follows. -/
theorem connectionId_reemitted {bytes : List UInt8} (ht : t.sockFd = -1)
    (hhash : t.infoHash.length = 20) (hsock : ¬ SocketFails env)
    (hreply : env.connectReply = some bytes) (hans : Answers (connectReq env) env.connectReply)
    (hmem : .announce req reply ∈ history t (env :: envs)) :
    ∃ packet, sendAnnounceRequest req = some packet ∧ slice packet 0 8 = slice bytes 8 8 := by
  have hsized := sized_of_history hhash hmem
  obtain ⟨-, -, rest, hhist, hunder⟩ := run_of_connects ht hsock envs
  have hid : req.connectionId = netWord64 (received 16 env.connectReply) 8 := by
    rw [hhist] at hmem
    rcases List.mem_cons.mp hmem with heq | hmem
    · cases heq
    · have hcid := hunder _ hmem
      rw [trackerAnnounceUdp_of_connects ht hsock, connect_connectionId hans] at hcid
      exact hcid
  have hlen : 16 ≤ (received 16 env.connectReply).length := by
    have hsize := hans.1
    rw [recvSize, if_pos (by rw [hreply]; rfl)] at hsize
    exact Int.ofNat_le.mp hsize
  have hslice : slice (received 16 env.connectReply) 8 8 = slice bytes 8 8 := by
    rw [hreply, received, Option.getD_some, slice, slice, List.drop_take, List.take_take]
    rfl
  refine ⟨_, sendAnnounceRequest_eq hsized, ?_⟩
  calc slice (all.flatMap fun f => f.bytes req) 0 8
      = beBytes 8 req.connectionId.toNat := slice_packet hsized connectionId
    _ = beBytes 8 (netWord64 (received 16 env.connectReply) 8).toNat := by rw [hid]
    _ = slice (received 16 env.connectReply) 8 8 := netWord64_eq _ _ (by omega)
    _ = slice bytes 8 8 := hslice

/-- **Nothing is lost on the wire.** The packet of an announce request holds each field, most
significant byte first, in bytes of its own that fill the packet; different requests have different
packets; a connect response is read as it was written, and its connection id goes out as it was
received with every announce request that follows. -/
theorem announce_lossless :
    (∀ req : AnnounceReq, req.Sized → ∃ packet, sendAnnounceRequest req = some packet ∧
      packet.length = 100 ∧ ∀ f : WireField, slice packet f.offset f.width = f.bytes req) ∧
    (∀ n < 100, ∃! f : WireField, f.offset ≤ n ∧ n < f.offset + f.width) ∧
    (∀ req req' : AnnounceReq, req.Sized → req'.Sized →
      sendAnnounceRequest req = sendAnnounceRequest req' → req = req') ∧
    (∀ res resp : ConnectResp,
      receiveConnectResponse res (some (connectPacket resp)) = (16, resp)) ∧
    ∀ (t : TrackerT) (env : Env) (envs : List Env) (bytes : List UInt8), t.sockFd = -1 →
      t.infoHash.length = 20 → ¬ SocketFails env → env.connectReply = some bytes →
      Answers (connectReq env) env.connectReply →
      ∀ req reply, .announce req reply ∈ history t (env :: envs) →
        ∃ packet, sendAnnounceRequest req = some packet ∧ slice packet 0 8 = slice bytes 8 8 := by
  refine ⟨?_, fun n hn => existsUnique_field hn, fun req req' h h' => eq_of_packet h h',
    receiveConnectResponse_connectPacket, ?_⟩
  · intro req h
    exact ⟨_, sendAnnounceRequest_eq h, length_packet h, slice_packet h⟩
  · intro t env envs bytes ht hhash hsock hreply hans req reply hmem
    exact connectionId_reemitted ht hhash hsock hreply hans hmem

/-- A request with negative counters: -1 bytes downloaded, the least number of bytes left, -5 uploaded. -/
def negativeRequest : AnnounceReq where
  connectionId := 0xfedcba9876543210
  action := 1
  transactionId := 0x80000001
  infoHash := List.replicate 20 7
  peerId := List.replicate 20 9
  downloaded := 0xffffffffffffffff
  left := 0x8000000000000000
  uploaded := 0xfffffffffffffffb
  event := 2
  numWant := 0xffffffff
  port := 6881
  extensions := 0

/-- A connect request is answered. -/
def granted : Env := { silent with
  connectReply := some (connectPacket ⟨0, silent.connectRand, 0x8123456789abcdef⟩) }

/-- Every field of the request is in its packet; and the second announce over the connection goes out with
the connection id as it came in. -/
theorem announce_lossless_example :
    (∃ packet, sendAnnounceRequest negativeRequest = some packet ∧ packet.length = 100 ∧
      ∀ f : WireField, slice packet f.offset f.width = f.bytes negativeRequest) ∧
    ∃ req reply packet,
      (history ⟨-1, 0, List.replicate 20 7, true⟩ [granted, silent])[2]? = some (.announce req reply) ∧
      sendAnnounceRequest req = some packet ∧
      slice packet 0 8 = [0x81, 0x23, 0x45, 0x67, 0x89, 0xab, 0xcd, 0xef] := by
  obtain ⟨hfields, -, -, -, hconnection⟩ := announce_lossless
  refine ⟨hfields negativeRequest ⟨rfl, rfl⟩, ?_⟩
  obtain ⟨req, reply, hsecond⟩ : ∃ req reply,
      (history ⟨-1, 0, List.replicate 20 7, true⟩ [granted, silent])[2]? =
        some (.announce req reply) := ⟨_, _, rfl⟩
  obtain ⟨packet, hsend, hid⟩ := hconnection _ granted [silent] _ rfl rfl (fun h => h rfl) rfl
    (by decide) req reply (List.mem_of_getElem? hsecond)
  exact ⟨req, reply, packet, hsecond, hsend, hid.trans (by decide)⟩

end Flood.Tracker
