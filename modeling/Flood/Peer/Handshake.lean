import Flood.Peer.Frames

/-!
# The handshake of peers

* `sendPeerHandshake` — what is put on the stream. `none` where the source reads past the end of
  the protocol name.
* `receivePeerHandshake` — one `recv` of 68 bytes, read field by field.
* `PeerHandshake.Sendable` — the handshakes that `peer_communication` sends: the name of the protocol
  has 19 bytes.
* `receivePeerHandshake_of_delivers` — a handshake that comes whole is received.
* `readHandshake_encode` — it is what was sent, but for `reserved`, which is read one byte too early.
* `roundTrips_iff` — so it is what was sent iff all bytes of `reserved` are the last letter of the
  name.
-/

namespace Flood.Peer

open Flood.Lib

/-- A handshake.
Source: `peer_protocol.h`, `peer_handshake` -/
structure PeerHandshake where
  /-- The length of the name. -/
  pstrlen : UInt8
  /-- The name of the protocol. -/
  pstr : List UInt8
  /-- Flags. -/
  reserved : UInt64
  /-- The torrent, an array of 20 bytes. -/
  infoHash : List UInt8
  /-- The client, an array of 20 bytes. -/
  peerId : List UInt8
  deriving DecidableEq

/-- The eight bytes `htonll` puts on the wire. -/
def networkBytes64 (x : UInt64) : List UInt8 := leBytes64 (bswap64 x)

/-- Send a handshake: the number of bytes sent, and the stream afterwards.
Source: `peer_protocol.c`, `send_peer_handshake` -/
def sendPeerHandshake (req : PeerHandshake) (sock : List UInt8) : Option (Int × List UInt8) :=
  if req.pstrlen.toNat ≤ req.pstr.length then
    some (send sock (req.pstrlen :: (req.pstr.take req.pstrlen.toNat ++
      networkBytes64 req.reserved ++ req.infoHash ++ req.peerId)))
  else none

/-- The fields of a received buffer. `reserved` is read at `buffer + pstrlen`. -/
def readHandshake (buffer : List UInt8) : PeerHandshake where
  pstrlen := buffer.headD 0
  pstr := (buffer.drop 1).take 19
  reserved := bswap64 (leWord64 ((buffer.drop 19).take 8))
  infoHash := (buffer.drop 28).take 20
  peerId := (buffer.drop 48).take 20

/-- Receive a handshake: the count returned, the handshake, and the socket afterwards. The buffer is
zero at first.
Source: `peer_protocol.c`, `receive_peer_handshake` -/
def receivePeerHandshake {σ : Type} (recv : Recv σ) (s : σ) : Option (Int × PeerHandshake × σ) := do
  let (size, buffer, s) ← recvInto recv (fun _ => 0) 68 s
  some (size, readHandshake buffer, s)

/-! ## Handshakes on the wire -/

/-- A handshake as `peer_communication` sets it up. -/
structure PeerHandshake.Sendable (h : PeerHandshake) : Prop where
  /-- `PEER_PROTOCOL_LEN` -/
  pstrlen : h.pstrlen = 19
  /-- The name is as long. -/
  pstr : h.pstr.length = 19
  /-- The size of the array. -/
  infoHash : h.infoHash.length = 20
  /-- The size of the array. -/
  peerId : h.peerId.length = 20

/-- The bytes of a handshake. -/
def PeerHandshake.encode (h : PeerHandshake) : List UInt8 :=
  h.pstrlen :: (h.pstr ++ networkBytes64 h.reserved ++ h.infoHash ++ h.peerId)

variable {h : PeerHandshake}

/-- A handshake has 68 bytes. -/
theorem PeerHandshake.Sendable.length_encode (hs : h.Sendable) : h.encode.length = 68 := by
  unfold PeerHandshake.encode networkBytes64
  simp only [List.length_cons, List.length_append, hs.pstr, hs.infoHash, hs.peerId,
    length_leBytes64]

/-- A handshake is sent as its bytes. -/
theorem sendPeerHandshake_spec (hs : h.Sendable) (sock : List UInt8) :
    sendPeerHandshake h sock = some (68, sock ++ h.encode) := by
  have hname : h.pstr.take h.pstrlen.toNat = h.pstr := by
    rw [hs.pstrlen]
    exact List.take_of_length_le (le_of_eq hs.pstr)
  have hle : h.pstrlen.toNat ≤ h.pstr.length := by
    rw [hs.pstrlen, hs.pstr]
    decide
  have hlen := hs.length_encode
  unfold PeerHandshake.encode at hlen ⊢
  unfold sendPeerHandshake send
  rw [if_pos hle, hname, hlen]
  rfl

/-- A handshake that comes whole is read. -/
theorem receivePeerHandshake_of_delivers {σ : Type} {recv : Recv σ} {s s' : σ} (hs : h.Sendable)
    (hd : Delivers recv s h.encode s') :
    receivePeerHandshake recv s = some (68, readHandshake h.encode, s') := by
  have hinto := hd fun _ => 0
  rw [hs.length_encode] at hinto
  unfold receivePeerHandshake
  rw [hinto]
  rfl

/-! ## There and back -/

/-- The bytes read as `reserved`: the last of the name, and the first seven of the field. -/
def PeerHandshake.misread (h : PeerHandshake) : List UInt8 :=
  h.pstr.drop 18 ++ (networkBytes64 h.reserved).take 7

/-- What is read is what was sent, but for `reserved`. -/
theorem readHandshake_encode (hs : h.Sendable) :
    readHandshake h.encode = { h with reserved := bswap64 (leWord64 h.misread) } := by
  obtain ⟨pstrlen, pstr, reserved, infoHash, peerId⟩ := h
  obtain ⟨rfl, hpstr, hinfo, hpeer⟩ := hs
  have hnet : (networkBytes64 reserved).length = 8 := rfl
  unfold readHandshake PeerHandshake.encode PeerHandshake.misread
  generalize networkBytes64 reserved = net at hnet ⊢
  dsimp only at hpstr hinfo hpeer
  have hname : (pstr ++ net ++ infoHash ++ peerId).take 19 = pstr := by
    rw [List.append_assoc, List.append_assoc, List.take_left' hpstr]
  have hread : ((pstr ++ net ++ infoHash ++ peerId).drop 18).take 8 = pstr.drop 18 ++ net.take 7 := by
    have hlast : (pstr.drop 18).length = 1 := by rw [List.length_drop, hpstr]
    rw [List.append_assoc, List.append_assoc, List.drop_append_of_le_length (by omega),
      List.take_append, hlast, List.take_of_length_le (by omega),
      List.take_append_of_le_length (by omega)]
  have hhash : ((pstr ++ net ++ infoHash ++ peerId).drop 27).take 20 = infoHash := by
    rw [List.append_assoc _ infoHash, List.drop_left' (by rw [List.length_append, hpstr, hnet]),
      List.take_left' hinfo]
  have hid : ((pstr ++ net ++ infoHash ++ peerId).drop 47).take 20 = peerId := by
    rw [List.drop_left' (by rw [List.length_append, List.length_append, hpstr, hnet, hinfo]),
      List.take_of_length_le (le_of_eq hpeer)]
  simp only [List.headD_cons, List.drop_succ_cons, List.drop_zero, hname, hread, hhash, hid]

/-- What is sent is received as it was, however it comes whole. -/
def RoundTrips (h : PeerHandshake) : Prop :=
  ∃ n bytes, sendPeerHandshake h [] = some (n, bytes) ∧
    ∀ (σ : Type) (recv : Recv σ) (s s' : σ), Delivers recv s bytes s' →
      receivePeerHandshake recv s = some (n, h, s')

/-- A handshake comes back iff `reserved` is read right. -/
theorem roundTrips_iff_misread (hs : h.Sendable) :
    RoundTrips h ↔ h.misread = networkBytes64 h.reserved := by
  have hlen : h.misread.length = 8 := by
    rw [PeerHandshake.misread, List.length_append, List.length_drop, hs.pstr]
    rfl
  have hword : bswap64 (leWord64 h.misread) = h.reserved ↔ h.misread = networkBytes64 h.reserved := by
    constructor
    · intro hread
      rw [networkBytes64, ← hread, bswap64_bswap64, leBytes64_leWord64 hlen]
    · intro hread
      rw [hread, networkBytes64, leWord64_leBytes64, bswap64_bswap64]
  rw [← hword]
  constructor
  · rintro ⟨n, bytes, hsend, hreceive⟩
    rw [sendPeerHandshake_spec hs, List.nil_append] at hsend
    obtain ⟨rfl, rfl⟩ := Prod.mk.inj (Option.some.inj hsend)
    have hfull : Delivers recvFull (h.encode ++ []) h.encode [] := delivers_full h.encode []
    have hread := hreceive _ _ _ _ hfull
    rw [receivePeerHandshake_of_delivers hs hfull, readHandshake_encode hs] at hread
    simp only [Option.some.injEq, Prod.mk.injEq, and_true, true_and] at hread
    exact congrArg PeerHandshake.reserved hread
  · intro hread
    refine ⟨68, h.encode, sendPeerHandshake_spec hs [], fun σ recv s s' hd => ?_⟩
    rw [receivePeerHandshake_of_delivers hs hd, readHandshake_encode hs, hread]

/-- A list that is itself moved back by one place has one letter only. -/
theorem cons_take_eq_iff {α : Type} {c : α} {l : List α} {n : Nat} (hl : l.length = n + 1) :
    c :: l.take n = l ↔ l = List.replicate (n + 1) c := by
  induction n generalizing c l with
  | zero =>
      obtain ⟨a, rfl⟩ := List.length_eq_one_iff.mp hl
      simp [eq_comm]
  | succ n ih =>
      obtain ⟨a, l, rfl⟩ := List.exists_cons_of_length_eq_add_one hl
      rw [List.take_succ_cons, List.cons.injEq, ih (Nat.succ.inj hl)]
      constructor
      · rintro ⟨rfl, hrest⟩
        rw [hrest]
        rfl
      · intro h
        obtain ⟨rfl, hrest⟩ := List.cons.inj h
        exact ⟨rfl, hrest⟩

/-- **When handshakes come back.** A handshake with a name of 19 letters is received as it was sent iff
all eight bytes of `reserved` are the last letter of the name. -/
theorem roundTrips_iff (hs : h.Sendable) :
    RoundTrips h ↔ networkBytes64 h.reserved = List.replicate 8 (h.pstr.getD 18 0) := by
  obtain ⟨c, hc⟩ : ∃ c, h.pstr.drop 18 = [c] := by
    apply List.length_eq_one_iff.mp
    rw [List.length_drop, hs.pstr]
  have hlast : h.pstr.getD 18 0 = c := by
    rw [List.getD_eq_getElem?_getD, ← List.head?_drop, hc]
    rfl
  rw [roundTrips_iff_misread hs, PeerHandshake.misread, hc, hlast]
  exact cons_take_eq_iff (length_leBytes64 _)

/-- A handshake that comes back. -/
theorem roundTrips_iff_example :
    RoundTrips ⟨19, List.replicate 19 108, 0x6c6c6c6c6c6c6c6c, List.replicate 20 1, List.replicate 20 2⟩ ↔
      networkBytes64 0x6c6c6c6c6c6c6c6c = List.replicate 8 108 :=
  roundTrips_iff ⟨rfl, rfl, rfl, rfl⟩

/-- The handshake of the protocol, with no flags, as it is sent. -/
def noFlags : PeerHandshake where
  pstrlen := 19
  pstr := [66, 105, 116, 84, 111, 114, 114, 101, 110, 116, 32, 112, 114, 111, 116, 111, 99, 111, 108]
  reserved := 0
  infoHash := List.replicate 20 0
  peerId := List.replicate 20 0

/-- Flags that were not sent are received. -/
theorem flags_received : noFlags.Sendable ∧ ¬ RoundTrips noFlags := by
  have hs : noFlags.Sendable := ⟨rfl, rfl, rfl, rfl⟩
  refine ⟨hs, ?_⟩
  rw [roundTrips_iff_misread hs]
  decide

end Flood.Peer
