import Flood.Client.Availability
import Flood.Lib.Padding
import Flood.Peer.Ident
import Flood.Peer.Segments

/-!
# `peer_communication`

All that passes between a thread of the client and one peer: the connection, the two handshakes, and the
messages that are heard.

* `Network` — what the calls to the system return. `connect` depends on the address, and `recv` is any.
* `greet` — up to the loop; `hear` — one turn of the loop; `peerCommunication` — a number of turns.
* `hearAll_eq` — the turns hand over to `handleMessage` what `receive_peer_message` returns.
* `talk_records_messages` — a peer that sends its handshake and messages: it is given up at once, or what
  it has said is recorded.
* `accepts_cut_iff` — which handshakes that are cut short by `recv` are taken for good ones.
-/

namespace Flood.Client

open Flood.Lib Flood.Peer

/-! ## The function -/

/-- `PEER_PROTOCOL_STR`, the text "BitTorrent protocol". -/
def protocolStr : List UInt8 :=
  [66, 105, 116, 84, 111, 114, 114, 101, 110, 116, 32, 112, 114, 111, 116, 111, 99, 111, 108]

/-- What a client says of itself: `torrent->info_hash` and `config.peer_id`. -/
structure Identity where
  /-- The torrent. -/
  infoHash : List UInt8
  /-- The client. -/
  peerId : List UInt8
  /-- An array of 20 bytes. -/
  infoHash_length : infoHash.length = 20
  /-- An array of 20 bytes. -/
  peerId_length : peerId.length = 20

/-- What the calls to the system return. -/
structure Network (σ : Type) where
  /-- `socket` -/
  socket : Int
  /-- `connect`, by address and port. -/
  connect : UInt32 → UInt16 → Int
  /-- `recv`, on a socket that is connected. -/
  recv : Recv σ
  /-- The socket once it is connected. -/
  start : σ

/-- `handshake_out` -/
def handshakeOut (me : Identity) : PeerHandshake where
  pstrlen := 19
  pstr := protocolStr
  reserved := 0
  infoHash := me.infoHash
  peerId := me.peerId

/-- `good`: neither the flags nor the identity of the other client are looked at. -/
def isGood (out received : PeerHandshake) : Bool :=
  out.infoHash = received.infoHash && received.pstrlen = 19 && received.pstr = protocolStr

/-- How far a thread is with a peer. -/
structure Talk (σ : Type) where
  /-- The record of the peer. -/
  peer : PeerT
  /-- All that was sent to it. -/
  sent : List UInt8
  /-- In the loop: `peer_name`, and the rest of the stream. `none` once the function has returned. -/
  loop : Option (String × σ)

/-- A peer is given up. -/
def giveUp {σ : Type} (peer : PeerT) (sent : List UInt8) : Talk σ :=
  ⟨{ peer with status := .bad }, sent, none⟩

variable {σ : Type}

/-- The function up to its loop. The port is put into 16 bits. -/
def greet (net : Network σ) (me : Identity) (peer : PeerT) : Option (Talk σ) :=
  if net.socket = -1 then some (giveUp peer [])
  else if net.connect peer.ipAddress peer.port.toUInt16 = -1 then some (giveUp peer [])
  else do
    let (_, sent) ← sendPeerHandshake (handshakeOut me) []
    let (_, handshakeIn, s) ← receivePeerHandshake net.recv net.start
    if isGood (handshakeOut me) handshakeIn then
      let peerName := (peerIdFriendly handshakeIn.peerId).getD "Unknown"
      some ⟨peer, sent, some (peerName, s)⟩
    else some (giveUp peer sent)

/-- One turn of the loop, with what `msg` and the buffers hold before it. -/
def hear (recv : Recv σ) (talk : Talk σ) (fresh : PeerMessage × (Nat → Nat → UInt8)) :
    Option (Talk σ) :=
  match talk.loop with
  | none => some talk
  | some (name, s) => do
      let (_, msg, s) ← receivePeerMessage recv fresh.2 fresh.1 s
      let peer ← handleMessage talk.peer msg
      some { talk with peer := peer, loop := some (name, s) }

/-- The function, with as many turns of its loop as there is fresh memory. `none`: it waits.
Source: `client.c`, `peer_communication` -/
def peerCommunication (net : Network σ) (me : Identity) (peer : PeerT)
    (fresh : List (PeerMessage × (Nat → Nat → UInt8))) : Option (Talk σ) := do
  let talk ← greet net me peer
  fresh.foldlM (hear net.recv) talk

/-! ## The handshake -/

variable {net : Network σ} {me : Identity} {peer : PeerT} {h : PeerHandshake} {s s' : σ}

/-- The connection is made. -/
structure Network.Opens (net : Network σ) (ip port : UInt32) : Prop where
  /-- There is a socket. -/
  socket : net.socket ≠ -1
  /-- It is connected. -/
  connect : net.connect ip port.toUInt16 ≠ -1

/-- The handshake that is sent is one that can be. -/
theorem handshakeOut_sendable (me : Identity) : (handshakeOut me).Sendable :=
  ⟨rfl, rfl, me.infoHash_length, me.peerId_length⟩

/-- What decides about a handshake that came whole. -/
theorem isGood_encode_iff (hs : h.Sendable) :
    isGood (handshakeOut me) (readHandshake h.encode) = true ↔
      h.pstr = protocolStr ∧ h.infoHash = me.infoHash := by
  unfold isGood
  rw [readHandshake_encode hs]
  simp only [Bool.and_eq_true, decide_eq_true_eq]
  constructor
  · rintro ⟨⟨hhash, -⟩, hname⟩
    exact ⟨hname, hhash.symm⟩
  · rintro ⟨hname, hhash⟩
    exact ⟨⟨hhash.symm, hs.pstrlen⟩, hname⟩

/-- The function up to its loop, where the connection is made. -/
theorem greet_of_opens (hopen : net.Opens peer.ipAddress peer.port) {n : Int} {received : PeerHandshake}
    (hrecv : receivePeerHandshake net.recv net.start = some (n, received, s)) :
    greet net me peer =
      some (if isGood (handshakeOut me) received then
        ⟨peer, (handshakeOut me).encode,
          some ((peerIdFriendly received.peerId).getD "Unknown", s)⟩
      else giveUp peer (handshakeOut me).encode) := by
  unfold greet
  rw [if_neg hopen.socket, if_neg hopen.connect, sendPeerHandshake_spec (handshakeOut_sendable me), hrecv]
  simp only [Option.bind_eq_bind, Option.bind_some, List.nil_append]
  split_ifs
  all_goals rfl

/-! ## The loop -/

/-- **The turns of the loop** hand over what is received. -/
theorem hearAll_eq {fresh : List (PeerMessage × (Nat → Nat → UInt8))} {got : List PeerMessage}
    {name : String} {sent : List UInt8} (hrun : receiveAll net.recv fresh s = some (got, s')) :
    fresh.foldlM (hear net.recv) ⟨peer, sent, some (name, s)⟩ =
      (handleAll peer got).map fun q => ⟨q, sent, some (name, s')⟩ := by
  induction fresh generalizing s peer got with
  | nil =>
      obtain ⟨rfl, rfl⟩ := Prod.mk.inj (Option.some.inj hrun)
      rfl
  | cons f fresh ih =>
      rw [receiveAll] at hrun
      simp only [Option.bind_eq_bind, Option.bind_eq_some_iff] at hrun
      obtain ⟨⟨n, msg, s₁⟩, hmsg, ⟨msgs, s₂⟩, hrest, heq⟩ := hrun
      obtain ⟨rfl, rfl⟩ := Prod.mk.inj (Option.some.inj heq)
      rw [List.foldlM_cons, hear, handleAll, List.foldlM_cons]
      simp only [hmsg, Option.bind_eq_bind, Option.bind_some]
      cases hq : handleMessage peer msg with
      | none => rfl
      | some q => exact ih hrest

/-- A peer that is given up is not heard. -/
theorem hearAll_giveUp (recv : Recv σ) (fresh : List (PeerMessage × (Nat → Nat → UInt8)))
    (sent : List UInt8) :
    fresh.foldlM (hear recv) (giveUp peer sent) = some (giveUp peer sent) := by
  induction fresh with
  | nil => rfl
  | cons f fresh ih => exact ih

/-! ## What the messages say -/

/-- The message says whether the peer chokes. -/
def chokes (msg : PeerMessage) : Option Bool :=
  match msg.type with
  | .msgChoke => some true
  | .msgUnchoke => some false
  | _ => none

/-- The message says whether the peer is interested. -/
def interests (msg : PeerMessage) : Option Bool :=
  match msg.type with
  | .msgInterested => some true
  | .msgNotInterested => some false
  | _ => none

/-- What was said last, `before` if nothing was. -/
def lastSaid (topic : PeerMessage → Option Bool) (msgs : List PeerMessage) (before : Bool) : Bool :=
  ((msgs.filterMap topic).getLast?).getD before

/-- The record `q'` of a peer after messages, where it was `q` before: who it is stays, and what it said
last of itself is noted. -/
structure Noted (q q' : PeerT) (msgs : List PeerMessage) : Prop where
  /-- The address stays. -/
  ip : q'.ipAddress = q.ipAddress
  /-- The port stays. -/
  port : q'.port = q.port
  /-- The status stays. -/
  status : q'.status = q.status
  /-- Whether it chokes. -/
  choking : q'.choking = lastSaid chokes msgs q.choking
  /-- Whether it is interested. -/
  interested : q'.interested = lastSaid interests msgs q.interested

/-- One thing said more. -/
theorem lastSaid_concat (topic : PeerMessage → Option Bool) (msgs : List PeerMessage) (msg : PeerMessage)
    (before : Bool) :
    lastSaid topic (msgs ++ [msg]) before = (topic msg).getD (lastSaid topic msgs before) := by
  unfold lastSaid
  rw [List.filterMap_append]
  cases hm : topic msg with
  | none => simp [hm]
  | some b => simp [hm]

/-- A single bit is all that a `have` writes. -/
theorem peerUpdateBitfieldIndex_bitfield {q q' : PeerT} {idx : UInt32} {newval : Bool}
    (hrun : peerUpdateBitfieldIndex q idx newval = some q') : ∃ bits, q' = { q with bitfield := bits } := by
  unfold peerUpdateBitfieldIndex at hrun
  by_cases hout : idx / 8 ≥ UInt32.ofInt q.bitfieldLength
  · rw [if_pos hout] at hrun
    exact ⟨q.bitfield, (Option.some.inj hrun).symm⟩
  · rw [if_neg hout] at hrun
    simp only [Option.bind_eq_bind, Option.bind_eq_some_iff] at hrun
    obtain ⟨bits, -, byte, -, hq⟩ := hrun
    exact ⟨_, (Option.some.inj hq).symm⟩

/-- A message is noted. -/
theorem handleMessage_noted {q q' : PeerT} {msg : PeerMessage} (hrun : handleMessage q msg = some q') :
    Noted q q' [msg] := by
  unfold handleMessage at hrun
  cases htype : msg.type
  all_goals rw [htype] at hrun
  case msgBitfield =>
    rw [peerUpdateBitfield, Option.ite_none_right_eq_some] at hrun
    obtain rfl := Option.some.inj hrun.2
    exact ⟨rfl, rfl, rfl, by simp [lastSaid, chokes, htype], by simp [lastSaid, interests, htype]⟩
  case msgHave =>
    obtain ⟨bits, hbits⟩ := peerUpdateBitfieldIndex_bitfield hrun
    obtain rfl := hbits
    exact ⟨rfl, rfl, rfl, by simp [lastSaid, chokes, htype], by simp [lastSaid, interests, htype]⟩
  all_goals
    obtain rfl := Option.some.inj hrun
    exact ⟨rfl, rfl, rfl, by simp [lastSaid, chokes, htype], by simp [lastSaid, interests, htype]⟩

/-- **What is noted of a peer** is what it said last. -/
theorem handleAll_noted {q q' : PeerT} {msgs : List PeerMessage} (hrun : handleAll q msgs = some q') :
    Noted q q' msgs := by
  unfold handleAll at hrun
  induction msgs using List.reverseRecOn generalizing q' with
  | nil =>
      obtain rfl := Option.some.inj hrun
      exact ⟨rfl, rfl, rfl, rfl, rfl⟩
  | append_singleton msgs msg ih =>
      obtain ⟨q₁, hmsgs, hmsg⟩ := foldlM_concat_eq_some_iff.mp hrun
      have hbefore := ih hmsgs
      have hone := handleMessage_noted hmsg
      refine ⟨hone.ip.trans hbefore.ip, hone.port.trans hbefore.port, hone.status.trans hbefore.status,
        ?_, ?_⟩
      · rw [lastSaid_concat, ← hbefore.choking, hone.choking]
        exact lastSaid_concat chokes [] msg q₁.choking
      · rw [lastSaid_concat, ← hbefore.interested, hone.interested]
        exact lastSaid_concat interests [] msg q₁.interested

/-- The struct that a message is handed over in does not matter. -/
theorem handleMessage_of_content {q : PeerT} {msg : PeerMessage} {m : Message}
    (hc : msg.content = some m) : handleMessage q msg = handleMessage q m.struct := by
  unfold PeerMessage.content at hc
  unfold handleMessage
  cases htype : msg.type
  all_goals rw [htype] at hc
  case msgBitfield =>
    obtain rfl := Option.some.inj hc
    show peerUpdateBitfield q msg.bitfield msg.word0 =
      peerUpdateBitfield q (msg.bitfield.take msg.word0.toNat) msg.word0
    simp [peerUpdateBitfield, List.take_take]
  all_goals cases hc
  all_goals rfl

/-- Nor do those of a sequence. -/
theorem handleAll_of_contents {got : List PeerMessage} {ms : List Message}
    (hc : got.map PeerMessage.content = ms.map some) (q : PeerT) :
    handleAll q got = handleAll q (ms.map Message.struct) := by
  induction got generalizing ms q with
  | nil =>
      rw [List.map_eq_nil_iff.mp hc.symm]
      rfl
  | cons msg got ih =>
      cases ms with
      | nil => cases hc
      | cons m ms =>
          obtain ⟨hm, hms⟩ := List.cons.inj hc
          unfold handleAll
          rw [List.map_cons, List.foldlM_cons, List.foldlM_cons, handleMessage_of_content hm]
          exact bind_congr fun q' => ih hms q'

/-- The struct of a message that fits has a buffer of its length. -/
theorem decoded_struct {m : Message} (hm : m.Fits) : Decoded m.struct := by
  cases m with
  | bitfield length bits => exact fun _ => hm.1
  | _ => exact fun hb => by cases hb

/-- Messages that a peer `ip` has sent, in the record of the peer. -/
structure Heard (ip port : UInt32) (msgs : List PeerMessage) (q : PeerT) : Prop where
  /-- Who it is, and what it says of itself. -/
  noted : Noted (newPeer ip port .inUse) q msgs
  /-- The pieces it has. -/
  records : Records q msgs
  /-- The bitfield has as many bytes as the record says. -/
  stored : Stored q

/-- **Messages are recorded**, whatever they are. -/
theorem exists_heard (ip port : UInt32) {msgs : List PeerMessage} (hd : ∀ msg ∈ msgs, Decoded msg) :
    ∃ q, handleAll (newPeer ip port .inUse) msgs = some q ∧ Heard ip port msgs q := by
  obtain ⟨q, hrun, hrecords⟩ := handleAll_spec ip port .inUse hd
  exact ⟨q, hrun, handleAll_noted hrun, hrecords, stored_of_handleAll hd hrun⟩

/-! ## A peer that says what it has to say -/

section Honest

variable {ip port : UInt32} {ms : List Message} {fresh : List (PeerMessage × (Nat → Nat → UInt8))}

/-- A good peer is heard. -/
theorem talk_of_good (me : Identity) (hopen : net.Opens ip port) (hs : h.Sendable)
    (hm : ∀ m ∈ ms, m.Fits) (hf : fresh.length = ms.length)
    (hd : DeliversAll net.recv net.start (h.encode :: ms.flatMap Message.chunks) s')
    (hgood : h.pstr = protocolStr ∧ h.infoHash = me.infoHash) :
    ∃ q, peerCommunication net me (newPeer ip port .inUse) fresh =
        some ⟨q, (handshakeOut me).encode, some ((peerIdFriendly h.peerId).getD "Unknown", s')⟩ ∧
      Heard ip port (ms.map Message.struct) q := by
  obtain ⟨s₁, hfirst, hrest⟩ := deliversAll_cons_iff.mp hd
  obtain ⟨got, hgot, hcontent⟩ := receiveAll_of_chunks hm hf hrest
  have hgreet := @greet_of_opens _ net me (newPeer ip port .inUse) _ hopen _ _
    (receivePeerHandshake_of_delivers hs hfirst)
  have hid : (readHandshake h.encode).peerId = h.peerId := by rw [readHandshake_encode hs]
  rw [if_pos ((isGood_encode_iff hs).mpr hgood), hid] at hgreet
  have hdecoded : ∀ msg ∈ ms.map Message.struct, Decoded msg := by
    intro msg hmsg
    obtain ⟨m, hmem, rfl⟩ := List.mem_map.mp hmsg
    exact decoded_struct (hm m hmem)
  obtain ⟨q, hq, hheard⟩ := exists_heard ip port hdecoded
  refine ⟨q, ?_, hheard⟩
  rw [peerCommunication, hgreet, Option.bind_eq_bind, Option.bind_some, hearAll_eq hgot,
    handleAll_of_contents hcontent, hq, Option.map_some]

/-- Another is given up. -/
theorem talk_of_bad (me : Identity) (hopen : net.Opens ip port) (hs : h.Sendable)
    (hd : Delivers net.recv net.start h.encode s')
    (hbad : ¬ (h.pstr = protocolStr ∧ h.infoHash = me.infoHash)) :
    peerCommunication net me (newPeer ip port .inUse) fresh =
      some (giveUp (newPeer ip port .inUse) (handshakeOut me).encode) := by
  have hgreet := @greet_of_opens _ net me (newPeer ip port .inUse) _ hopen _ _
    (receivePeerHandshake_of_delivers hs hd)
  rw [if_neg (fun h' => hbad ((isGood_encode_iff hs).mp h'))] at hgreet
  rw [peerCommunication, hgreet, Option.bind_eq_bind, Option.bind_some, hearAll_giveUp]

/-- **A peer is given up, or what it says is recorded.** It sends its handshake and any messages, and
each `recv` returns what it is asked for. If it speaks the protocol and shares the torrent, its record
then says what its messages say; else no message is read, and only the status changes. -/
theorem talk_records_messages (me : Identity) (hopen : net.Opens ip port) (hs : h.Sendable)
    (hm : ∀ m ∈ ms, m.Fits) (hf : fresh.length = ms.length)
    (hd : DeliversAll net.recv net.start (h.encode :: ms.flatMap Message.chunks) s') :
    (h.pstr = protocolStr ∧ h.infoHash = me.infoHash →
      ∃ q, peerCommunication net me (newPeer ip port .inUse) fresh =
          some ⟨q, (handshakeOut me).encode, some ((peerIdFriendly h.peerId).getD "Unknown", s')⟩ ∧
        Heard ip port (ms.map Message.struct) q) ∧
    (¬ (h.pstr = protocolStr ∧ h.infoHash = me.infoHash) →
      peerCommunication net me (newPeer ip port .inUse) fresh =
        some (giveUp (newPeer ip port .inUse) (handshakeOut me).encode)) := by
  obtain ⟨s₁, hfirst, -⟩ := deliversAll_cons_iff.mp hd
  exact ⟨talk_of_good me hopen hs hm hf hd, talk_of_bad me hopen hs hfirst⟩

end Honest

/-- A network on which these bytes come. -/
def wire (bytes : List UInt8) : Network (List UInt8) where
  socket := 3
  connect _ _ := 0
  recv := recvFull
  start := bytes

/-- The connection is made. -/
theorem wire_opens (bytes : List UInt8) (ip port : UInt32) : (wire bytes).Opens ip port :=
  ⟨(by decide : (3 : Int) ≠ -1), (by decide : (0 : Int) ≠ -1)⟩

/-- A client. -/
def someIdentity : Identity := ⟨List.replicate 20 1, List.replicate 20 2, rfl, rfl⟩

/-- The handshake of another client with the same torrent. -/
def someGood : PeerHandshake := ⟨19, protocolStr, 0, List.replicate 20 1, List.replicate 20 3⟩

/-- It can be sent. -/
theorem someGood_sendable : someGood.Sendable := ⟨rfl, rfl, rfl, rfl⟩

/-- Some messages. -/
def someMessages : List Message := [.bitfield 1 [0x80], .hasPiece 3, .choke]

/-- They fit. -/
theorem someMessages_fit : ∀ m ∈ someMessages, m.Fits := by
  simp [someMessages, Message.Fits]

/-- What comes of them. -/
theorem someMessages_delivered : DeliversAll recvFull
    ((someGood.encode :: someMessages.flatMap Message.chunks).flatten ++ [])
    (someGood.encode :: someMessages.flatMap Message.chunks) [] :=
  deliversAll_full _ []

/-- A bitfield, a piece more, and a choke. -/
theorem talk_records_messages_example :
    (someGood.pstr = protocolStr ∧ someGood.infoHash = someIdentity.infoHash →
      ∃ q, peerCommunication
          (wire ((someGood.encode :: someMessages.flatMap Message.chunks).flatten ++ []))
          someIdentity (newPeer 1 6881 .inUse)
          (List.replicate 3 (⟨.msgUnknown, 9, 9, 9, [9], [9]⟩, fun _ _ => 9)) =
        some ⟨q, (handshakeOut someIdentity).encode,
          some ((peerIdFriendly someGood.peerId).getD "Unknown", [])⟩ ∧
        Heard 1 6881 (someMessages.map Message.struct) q) ∧
    (¬ (someGood.pstr = protocolStr ∧ someGood.infoHash = someIdentity.infoHash) →
      peerCommunication
          (wire ((someGood.encode :: someMessages.flatMap Message.chunks).flatten ++ []))
          someIdentity (newPeer 1 6881 .inUse)
          (List.replicate 3 (⟨.msgUnknown, 9, 9, 9, [9], [9]⟩, fun _ _ => 9)) =
        some (giveUp (newPeer 1 6881 .inUse) (handshakeOut someIdentity).encode)) :=
  talk_records_messages someIdentity (wire_opens _ _ _) someGood_sendable someMessages_fit rfl
    someMessages_delivered

/-! ## A handshake that is cut -/

/-- The peer is taken for a good one. -/
def Accepts (net : Network σ) (me : Identity) (peer : PeerT) : Prop :=
  ∃ talk, greet net me peer = some talk ∧ talk.loop ≠ none

/-- A handshake that came decides. -/
theorem accepts_iff_isGood (hopen : net.Opens peer.ipAddress peer.port) {n : Int}
    {received : PeerHandshake} (hrecv : receivePeerHandshake net.recv net.start = some (n, received, s)) :
    Accepts net me peer ↔ isGood (handshakeOut me) received = true := by
  rw [Accepts, greet_of_opens hopen hrecv]
  split_ifs with hgood
  · exact iff_of_true ⟨_, rfl, by simp⟩ hgood
  · refine iff_of_false ?_ hgood
    rintro ⟨talk, htalk, hloop⟩
    obtain rfl := Option.some.inj htalk
    exact hloop rfl

/-- The first byte of a block that ends in a byte that is not zero. -/
theorem headD_eq_of_slice {bs : List UInt8} : bs.headD 0 = (slice bs 0 1).headD 0 := by
  cases bs with
  | nil => rfl
  | cons b bs => rfl

/-- The buffer after a `recv` that is not satisfied in full. -/
theorem recvInto_zero {recv : Recv σ} {n : Nat} {ret : Int} {bytes : List UInt8}
    (hrecv : recv n s = some (ret, bytes, s')) :
    recvInto recv (fun _ => 0) n s = some (ret, padTo n bytes, s') := by
  unfold recvInto padTo
  rw [hrecv]
  simp [List.map_const']

/-- The fields of a handshake. -/
theorem slice_encode (hs : h.Sendable) : slice h.encode 0 1 = [19] ∧ slice h.encode 1 19 = h.pstr ∧
    slice h.encode 28 20 = h.infoHash := by
  have hread := readHandshake_encode hs
  refine ⟨?_, congrArg PeerHandshake.pstr hread, congrArg PeerHandshake.infoHash hread⟩
  rw [← hs.pstrlen]
  rfl

/-- What decides about a handshake of which `n` bytes have come. -/
theorem isGood_padTo_iff (hs : h.Sendable) (n : Nat) :
    isGood (handshakeOut me) (readHandshake (padTo 68 (h.encode.take n))) = true ↔
      20 ≤ n ∧ h.pstr = protocolStr ∧ me.infoHash = padTo 20 (h.infoHash.take (n - 28)) := by
  obtain ⟨hlen, hname, hhash⟩ := slice_encode hs
  have hpstr : (readHandshake (padTo 68 (h.encode.take n))).pstr = padTo 19 (h.pstr.take (n - 1)) := by
    rw [← hname, ← slice_padTo_take hs.length_encode (by decide)]
    rfl
  have hinfo : (readHandshake (padTo 68 (h.encode.take n))).infoHash =
      padTo 20 (h.infoHash.take (n - 28)) := by
    rw [← hhash, ← slice_padTo_take hs.length_encode (by decide)]
    rfl
  have hpstrlen : 20 ≤ n → (readHandshake (padTo 68 (h.encode.take n))).pstrlen = 19 := by
    intro hn
    show (padTo 68 (h.encode.take n)).headD 0 = 19
    rw [headD_eq_of_slice, slice_padTo_take hs.length_encode (by decide), hlen,
      List.take_of_length_le (by simpa using by omega)]
    rfl
  have hwhole : padTo 19 (h.pstr.take (n - 1)) = protocolStr ↔ 19 ≤ n - 1 ∧ h.pstr = protocolStr :=
    padTo_take_eq_iff hs.pstr rfl (c := 108) rfl (by decide)
  unfold isGood
  simp only [Bool.and_eq_true, decide_eq_true_eq]
  rw [hpstr, hinfo, hwhole]
  constructor
  · rintro ⟨⟨hme, -⟩, hn, hp⟩
    exact ⟨by omega, hp, hme⟩
  · rintro ⟨hn, hp, hme⟩
    exact ⟨⟨hme, hpstrlen hn⟩, by omega, hp⟩

/-- **Which handshakes that are cut are accepted.** Of the handshake of a peer the first `n` bytes come
at once. The peer is accepted iff these have the name of the protocol in full, and the client's torrent is
what has come of the peer's, filled up with zeros. -/
theorem accepts_cut_iff (me : Identity) (hopen : net.Opens peer.ipAddress peer.port) (hs : h.Sendable)
    {n : Nat} {ret : Int} (hcut : net.recv 68 net.start = some (ret, h.encode.take n, s')) :
    Accepts net me peer ↔
      20 ≤ n ∧ h.pstr = protocolStr ∧ me.infoHash = padTo 20 (h.infoHash.take (n - 28)) := by
  have hreceive : receivePeerHandshake net.recv net.start =
      some (ret, readHandshake (padTo 68 (h.encode.take n)), s') := by
    rw [receivePeerHandshake, recvInto_zero hcut]
    rfl
  rw [← isGood_padTo_iff hs, accepts_iff_isGood hopen hreceive]

/-- A network on which the first `n` bytes of these come at once. -/
def cutWire (n : Nat) (bytes : List UInt8) : Network Unit where
  socket := 3
  connect _ _ := 0
  recv _ _ := some (n, bytes.take n, ())
  start := ()

/-- A handshake that is cut in the middle of the torrent. -/
theorem accepts_cut_iff_example :
    Accepts (cutWire 40 someGood.encode) someIdentity (newPeer 1 6881 .inUse) ↔
      20 ≤ 40 ∧ someGood.pstr = protocolStr ∧
        someIdentity.infoHash = padTo 20 (someGood.infoHash.take (40 - 28)) := by
  have hopen : (cutWire 40 someGood.encode).Opens (newPeer 1 6881 .inUse).ipAddress
      (newPeer 1 6881 .inUse).port := ⟨by decide, by decide⟩
  exact accepts_cut_iff someIdentity hopen someGood_sendable rfl

end Flood.Client
