import Flood.Client.Communication
import Flood.Client.Swarm

/-!
# Any network

Calls of `peer_communication` on a network of which nothing is known, and in the midst of the other
threads.

* `Answers` — every `recv` returns; it may fail, or return less than it was asked for.
* `talk_safe` — whatever the network does, the record of the peer stays in order.
* `OnlyPeer` — moves of one thread write to one peer.
* `message_simulated` — a message is heard in a few moves; `talk_simulated` — a call is a sequence of moves
  among those of the other threads.
-/

namespace Flood.Client

open Flood.Lib Flood.Peer

variable {σ : Type} {net : Network σ} {me : Identity} {peer : PeerT} {s : σ}

/-- Every `recv` returns, with an error or with no more bytes than it was asked for. -/
def Answers (recv : Recv σ) : Prop := ∀ n s, ∃ r, recv n s = some r ∧ r.2.1.length ≤ n

section Answers

variable {recv : Recv σ}

/-- What is written is no more than what was asked for. -/
theorem Answers.length_le (ha : Answers recv) {n : Nat} {r : Int × List UInt8 × σ}
    (h : recv n s = some r) : r.2.1.length ≤ n := by
  obtain ⟨r', hr', hle⟩ := ha n s
  rw [h] at hr'
  obtain rfl := Option.some.inj hr'
  exact hle

/-- A buffer is filled somehow. -/
theorem Answers.recvInto (ha : Answers recv) (junk : Nat → UInt8) (n : Nat) (s : σ) :
    ∃ r, Peer.recvInto recv junk n s = some r := by
  obtain ⟨⟨ret, bytes, s'⟩, hr, -⟩ := ha n s
  exact ⟨_, by rw [Peer.recvInto, hr]; rfl⟩

/-- A number is read somehow. -/
theorem Answers.recvWord (ha : Answers recv) (junk : Nat → UInt8) (s : σ) :
    ∃ r, Peer.recvWord recv junk s = some r := by
  obtain ⟨⟨ret, buf, s'⟩, hr⟩ := ha.recvInto junk 4 s
  exact ⟨_, by rw [Peer.recvWord, hr]; rfl⟩

/-- The fields of a message are read somehow. -/
theorem Answers.receiveFields (ha : Answers recv) (junk : Nat → Nat → UInt8) (L : UInt32) (id : UInt8)
    (msg : PeerMessage) (s : σ) : ∃ r, Peer.receiveFields recv junk L id msg s = some r := by
  rcases id_cases id with rfl | rfl | hid | rfl | hid
  · obtain ⟨r, hr⟩ := ha.recvWord (junk 2) s
    exact ⟨_, by rw [receiveFields_have, hr]; rfl⟩
  · obtain ⟨r, hr⟩ := ha.recvInto (junk 2) (L - 1).toNat s
    exact ⟨_, by rw [receiveFields_bitfield, hr]; rfl⟩
  · obtain ⟨r0, hr0⟩ := ha.recvWord (junk 2) s
    obtain ⟨r1, hr1⟩ := ha.recvWord (junk 3) r0.2
    obtain ⟨r2, hr2⟩ := ha.recvWord (junk 4) r1.2
    exact ⟨_, by rw [receiveFields_request _ _ _ _ _ hid, hr0, Option.bind_some, hr1, Option.bind_some, hr2]; rfl⟩
  · obtain ⟨r0, hr0⟩ := ha.recvWord (junk 2) s
    obtain ⟨r1, hr1⟩ := ha.recvWord (junk 3) r0.2
    obtain ⟨r2, hr2⟩ := ha.recvInto (junk 4) (L - 9).toNat r1.2
    exact ⟨_, by rw [receiveFields_piece, hr0, Option.bind_some, hr1, Option.bind_some, hr2]; rfl⟩
  · obtain ⟨type, -, -, hr⟩ := @receiveFields_other _ recv junk L msg s id hid
    exact ⟨_, hr⟩

/-- A message is read somehow, and is one that was decoded. -/
theorem Answers.receivePeerMessage (ha : Answers recv) (junk : Nat → Nat → UInt8) (old : PeerMessage)
    (s : σ) : ∃ n msg s', Peer.receivePeerMessage recv junk old s = some (n, msg, s') ∧ Decoded msg := by
  obtain ⟨⟨n0, buf, s₁⟩, h0⟩ := ha.recvInto (junk 0) 4 s
  obtain ⟨⟨n1, buf', s₂⟩, h1⟩ := ha.recvInto (junk 1) 1 s₁
  obtain ⟨⟨msg, s₃⟩, h2⟩ := ha.receiveFields junk (bswap32 (leWord buf)) (buf'.headD 0)
    (if bswap32 (leWord buf) = 0 then { old with type := .msgKeepalive } else old) s₂
  have hrun : Peer.receivePeerMessage recv junk old s = some (n0 + n1, msg, s₃) := by
    unfold Peer.receivePeerMessage
    rw [h0, Option.bind_eq_bind, Option.bind_some]
    simp only [h1, h2, Option.bind_eq_bind, Option.bind_some]
  exact ⟨_, _, _, hrun, receivePeerMessage_decoded (fun _ _ _ h => ha.length_le h) hrun⟩

/-- So are any number of messages. -/
theorem Answers.receiveAll (ha : Answers recv) (fresh : List (PeerMessage × (Nat → Nat → UInt8)))
    (s : σ) : ∃ msgs s', Peer.receiveAll recv fresh s = some (msgs, s') ∧ ∀ msg ∈ msgs, Decoded msg := by
  induction fresh generalizing s with
  | nil => exact ⟨[], s, rfl, by simp⟩
  | cons f fresh ih =>
      obtain ⟨n, msg, s₁, hmsg, hdecoded⟩ := ha.receivePeerMessage f.2 f.1 s
      obtain ⟨msgs, s₂, hmsgs, hall⟩ := ih s₁
      refine ⟨msg :: msgs, s₂, ?_, List.forall_mem_cons.mpr ⟨hdecoded, hall⟩⟩
      simp only [Peer.receiveAll, hmsg, hmsgs, Option.bind_eq_bind, Option.bind_some]

end Answers

/-- How a talk with a peer ends: it is given up, or it has been heard. -/
inductive Ends (net : Network σ) (me : Identity) (ip port : UInt32)
    (fresh : List (PeerMessage × (Nat → Nat → UInt8))) : Talk σ → Prop
  /-- There was no connection. -/
  | unconnected : ¬ net.Opens ip port → Ends net me ip port fresh (giveUp (newPeer ip port .inUse) [])
  /-- There was no good handshake. -/
  | bad {n : Int} {received : PeerHandshake} {s : σ} : net.Opens ip port →
      receivePeerHandshake net.recv net.start = some (n, received, s) →
      ¬ isGood (handshakeOut me) received →
      Ends net me ip port fresh (giveUp (newPeer ip port .inUse) (handshakeOut me).encode)
  /-- There was one, and then messages. -/
  | heard {n : Int} {received : PeerHandshake} {s s' : σ} {msgs : List PeerMessage} {q : PeerT} :
      net.Opens ip port → receivePeerHandshake net.recv net.start = some (n, received, s) →
      isGood (handshakeOut me) received → receiveAll net.recv fresh s = some (msgs, s') →
      Heard ip port msgs q →
      Ends net me ip port fresh ⟨q, (handshakeOut me).encode,
        some ((peerIdFriendly received.peerId).getD "Unknown", s')⟩

/-- **Whatever the network does**, each turn of the loop is made, nothing but the handshake is sent, and
the record of the peer is in order: it is that of a peer given up, or of the messages as they were
read. -/
theorem talk_safe (me : Identity) (ip port : UInt32) (ha : Answers net.recv)
    (fresh : List (PeerMessage × (Nat → Nat → UInt8))) :
    ∃ talk, peerCommunication net me (newPeer ip port .inUse) fresh = some talk ∧
      Ends net me ip port fresh talk := by
  by_cases hopen : net.Opens ip port
  · obtain ⟨⟨n, buffer, s₁⟩, hbuffer⟩ := ha.recvInto (fun _ => 0) 68 net.start
    have hreceive : receivePeerHandshake net.recv net.start = some (n, readHandshake buffer, s₁) := by
      rw [receivePeerHandshake, hbuffer]
      rfl
    have hgreet := @greet_of_opens _ net me (newPeer ip port .inUse) _ hopen _ _ hreceive
    by_cases hgood : isGood (handshakeOut me) (readHandshake buffer) = true
    · obtain ⟨msgs, s₂, hmsgs, hdecoded⟩ := ha.receiveAll fresh s₁
      obtain ⟨q, hq, hheard⟩ := exists_heard ip port hdecoded
      refine ⟨_, ?_, .heard hopen hreceive hgood hmsgs hheard⟩
      rw [peerCommunication, hgreet, if_pos hgood, Option.bind_eq_bind, Option.bind_some,
        hearAll_eq hmsgs, hq, Option.map_some]
    · refine ⟨_, ?_, .bad hopen hreceive hgood⟩
      rw [peerCommunication, hgreet, if_neg hgood, Option.bind_eq_bind, Option.bind_some, hearAll_giveUp]
  · refine ⟨_, ?_, .unconnected hopen⟩
    have hgreet : greet net me (newPeer ip port .inUse) = some (giveUp (newPeer ip port .inUse) []) := by
      unfold greet
      split_ifs with hsocket hconnect
      · rfl
      · rfl
      · exact absurd ⟨hsocket, hconnect⟩ hopen
    rw [peerCommunication, hgreet, Option.bind_eq_bind, Option.bind_some, hearAll_giveUp]

/-- A network on which these bytes come, as many as are asked for, and then nothing. -/
def closing (bytes : List UInt8) : Network (List UInt8) where
  socket := 3
  connect _ _ := 0
  recv n s := some ((s.take n).length, s.take n, s.drop n)
  start := bytes

/-- Every `recv` returns. -/
theorem answers_closing (bytes : List UInt8) : Answers (closing bytes).recv := fun n s =>
  ⟨_, rfl, by simp⟩

/-- A good peer that sends a bitfield, a piece more and a choke, and closes the connection. -/
def closingPeer : Network (List UInt8) := closing (someGood.encode ++ someMessages.flatMap Message.encode)

/-- Structs and buffers for four turns, with `9` all over. -/
def fourTurns : List (PeerMessage × (Nat → Nat → UInt8)) :=
  List.replicate 4 (⟨.msgUnknown, 9, 9, 9, [9], [9]⟩, fun _ _ => 9)

/-- Its pieces are recorded, and a fourth turn is made, without a message. -/
theorem talk_safe_example :
    ∃ talk, peerCommunication closingPeer someIdentity (newPeer 1 6881 .inUse) fourTurns = some talk ∧
      Ends closingPeer someIdentity 1 6881 fourTurns talk ∧
      talk.peer.bitfield = some [0x90] ∧ talk.loop.isSome = true := by
  obtain ⟨talk, hrun, hends⟩ := talk_safe someIdentity 1 6881 (answers_closing _) fourTurns
  have hheard : (peerCommunication closingPeer someIdentity (newPeer 1 6881 .inUse) fourTurns).map
      (fun talk => (talk.peer.bitfield, talk.loop.isSome)) = some (some [0x90], true) := by
    decide +kernel
  have hrun' : peerCommunication closingPeer someIdentity (newPeer 1 6881 .inUse) fourTurns =
      some talk := hrun
  rw [hrun'] at hheard
  obtain ⟨hbits, hloop⟩ := Prod.mk.inj (Option.some.inj hheard)
  exact ⟨talk, hrun, hends, hbits, hloop⟩

/-! ## The interleaved threads -/

open Swarm

/-- Only the peer that `p` points to has changed, and is `q` now. -/
structure OnlyPeer (p : UInt64) (q : PeerT) (s s' : Shared) : Prop where
  /-- The peer. -/
  peer : s'.peer p = some q
  /-- The others. -/
  others : ∀ a, a ≠ p → s'.peer a = s.peer a
  /-- Their bitfields. -/
  freed : ∀ a, a ≠ p → (a ∈ s'.freed ↔ a ∈ s.freed)
  /-- The list. -/
  list : s'.list = s.list
  /-- The record of reports. -/
  handled : s'.handled = s.handled

section OnlyPeer

variable {p : UInt64} {q q' : PeerT} {s s₁ s₂ : Shared}

/-- Nothing has changed. -/
theorem onlyPeer_refl (hq : s.peer p = some q) : OnlyPeer p q s s :=
  ⟨hq, fun _ _ => rfl, fun _ _ => Iff.rfl, rfl, rfl⟩

/-- A peer that is written to. -/
theorem onlyPeer_setPeer (hq : s.peer p = some q) (q' : PeerT) :
    OnlyPeer p q' s (s.setPeer p q') where
  peer := by rw [peer_setPeer hq, if_pos rfl]
  others a ha := by rw [peer_setPeer hq, if_neg ha]
  freed _ _ := Iff.rfl
  list := rfl
  handled := rfl

/-- A peer the bitfield of which is freed. -/
theorem onlyPeer_free (hq : s.peer p = some q) : OnlyPeer p q s (s.free p) where
  peer := hq
  others _ _ := rfl
  freed _ ha := by simp [Shared.free, ha]
  list := rfl
  handled := rfl

/-- A peer that has got a bitfield. -/
theorem OnlyPeer.renew (h : OnlyPeer p q s s₁) : OnlyPeer p q s (s₁.renew p) where
  peer := h.peer
  others := h.others
  freed a ha := by simp [Shared.renew, ha, h.freed a ha]
  list := h.list
  handled := h.handled

/-- One change after the other. -/
theorem OnlyPeer.trans (h : OnlyPeer p q s s₁) (h' : OnlyPeer p q' s₁ s₂) : OnlyPeer p q' s s₂ where
  peer := h'.peer
  others a ha := (h'.others a ha).trans (h.others a ha)
  freed a ha := (h'.freed a ha).trans (h.freed a ha)
  list := h'.list.trans h.list
  handled := h'.handled.trans h.handled

end OnlyPeer

section Messages

variable {t : Nat} {p : UInt64} {s : Shared} {q q' : PeerT} {msg : PeerMessage}

/-- A bitfield that is to be replaced is freed. -/
theorem free_simulated (hq : s.Holds p q) (msg : PeerMessage) :
    ∃ s', Moves t s (.update p msg .free) .step (.go s' (.update p msg .malloc)) ∧
      OnlyPeer p q s s' := by
  by_cases hnull : q.bitfield = none
  · exact ⟨s, .null msg hq.peer hnull, onlyPeer_refl hq.peer⟩
  · exact ⟨s.free p, .free msg hq.peer hnull hq.live, onlyPeer_free hq.peer⟩

/-- A bitfield message is heard in five moves: it is replaced block by block. -/
theorem replace_simulated (hq : s.Holds p q) (htype : msg.type = .msgBitfield)
    (hmsg : peerUpdateBitfield q msg.bitfield msg.word0 = some q') :
    ∃ (inputs : List Input) (s' : Shared), moveAll t (s, .talk p) inputs = some (s', .talk p) ∧
      OnlyPeer p q' s s' ∧ p ∉ s'.freed := by
  rw [peerUpdateBitfield] at hmsg
  split_ifs at hmsg with hroom
  obtain rfl := Option.some.inj hmsg
  obtain ⟨junk, hjunk⟩ : ∃ junk, junk = List.replicate msg.word0.toNat (0 : UInt8) := ⟨_, rfl⟩
  have hlen : junk.length = msg.word0.toNat := by rw [hjunk, List.length_replicate]
  obtain ⟨s₁, hfree, honly₁⟩ := @free_simulated t p s q hq msg
  -- the block of `malloc`, which is then written over
  have honly₂ := (onlyPeer_setPeer honly₁.peer { q with bitfield := some junk }).renew
  have hlive₂ : p ∉ ((s₁.setPeer p { q with bitfield := some junk }).renew p).freed := by
    simp [Shared.renew]
  have hcopy : copyBitfield msg { q with bitfield := some junk } =
      some { q with bitfield := some (msg.bitfield.take msg.word0.toNat) } := by
    simp [copyBitfield, hroom, hlen.ge, List.drop_eq_nil_of_le hlen.le]
  have honly₃ := onlyPeer_setPeer honly₂.peer
    { q with bitfield := some (msg.bitfield.take msg.word0.toNat) }
  have honly₄ := onlyPeer_setPeer honly₃.peer
    { q with bitfield := some (msg.bitfield.take msg.word0.toNat), bitfieldLength := intOfUInt msg.word0 }
  refine ⟨[.message msg, .step, .room junk, .step, .step], _, ?_,
    ((honly₁.trans honly₂).trans honly₃).trans honly₄, hlive₂⟩
  rw [moveAll_cons _ (.replace p htype), moveAll_cons _ hfree, moveAll_cons _ (.malloc msg hlen honly₁.peer),
    moveAll_cons _ (.copy msg hlive₂ honly₂.peer hcopy), moveAll_cons _ (.length msg honly₃.peer)]
  rfl

/-- A message that announces one piece is heard in two moves, or in one. -/
theorem have_simulated (hq : s.Holds p q) (htype : msg.type = .msgHave)
    (hmsg : peerUpdateBitfieldIndex q msg.word0 true = some q') :
    ∃ (inputs : List Input) (s' : Shared), moveAll t (s, .talk p) inputs = some (s', .talk p) ∧
      OnlyPeer p q' s s' ∧ p ∉ s'.freed := by
  rw [peerUpdateBitfieldIndex] at hmsg
  by_cases hout : msg.word0 / 8 ≥ UInt32.ofInt q.bitfieldLength
  · rw [if_pos hout] at hmsg
    obtain rfl := Option.some.inj hmsg
    refine ⟨[.message msg], s, ?_, onlyPeer_refl hq.peer, hq.live⟩
    rw [moveAll_cons _ (.beyond htype hq.peer hout)]
    rfl
  · rw [if_neg hout] at hmsg
    have hmark : markBit msg.word0 q = some q' := hmsg
    refine ⟨[.message msg, .step], _, ?_, onlyPeer_setPeer hq.peer q', hq.live⟩
    rw [moveAll_cons _ (.within htype hq.peer (UInt32.not_le.mp hout)),
      moveAll_cons _ (.mark _ hq.live hq.peer hmark)]
    rfl

/-- **A message is heard** in a few moves. -/
theorem message_simulated (hq : s.Holds p q) (hmsg : handleMessage q msg = some q') :
    ∃ (inputs : List Input) (s' : Shared), moveAll t (s, .talk p) inputs = some (s', .talk p) ∧
      OnlyPeer p q' s s' ∧ p ∉ s'.freed := by
  by_cases hbitfield : msg.type = .msgBitfield
  · rw [handleMessage, hbitfield] at hmsg
    exact replace_simulated hq hbitfield hmsg
  · by_cases hhave : msg.type = .msgHave
    · rw [handleMessage, hhave] at hmsg
      exact have_simulated hq hhave hmsg
    · refine ⟨[.message msg], _, ?_, onlyPeer_setPeer hq.peer q', hq.live⟩
      rw [moveAll_cons _ (.hear hbitfield hhave hq.peer hmsg)]
      rfl

end Messages

/-- The turns of the loop are moves of the thread. -/
theorem hearAll_simulated (t : Nat) {p : UInt64} {s : Shared} {recv : Recv σ}
    {fresh : List (PeerMessage × (Nat → Nat → UInt8))} {talk talk' : Talk σ}
    (hpeer : s.Holds p talk.peer) (hloop : talk.loop ≠ none)
    (hrun : fresh.foldlM (hear recv) talk = some talk') :
    talk'.loop ≠ none ∧ ∃ (inputs : List Input) (s' : Shared),
      moveAll t (s, .talk p) inputs = some (s', .talk p) ∧ OnlyPeer p talk'.peer s s' ∧
        p ∉ s'.freed := by
  induction fresh generalizing s talk with
  | nil =>
      obtain rfl := Option.some.inj hrun
      exact ⟨hloop, [], s, rfl, onlyPeer_refl hpeer.peer, hpeer.live⟩
  | cons f fresh ih =>
      obtain ⟨⟨name, stream⟩, hsome⟩ := Option.ne_none_iff_exists'.mp hloop
      rw [List.foldlM_cons, Option.bind_eq_bind, Option.bind_eq_some_iff] at hrun
      obtain ⟨talk₁, hturn, hrest⟩ := hrun
      rw [hear, hsome] at hturn
      simp only [Option.bind_eq_bind, Option.bind_eq_some_iff] at hturn
      obtain ⟨⟨n, msg, stream₁⟩, -, q, hq, heq⟩ := hturn
      obtain rfl := Option.some.inj heq
      obtain ⟨first, s₁, hfirst, honly, hlive⟩ := @message_simulated t p s _ _ _ hpeer hq
      obtain ⟨hloop', inputs, s', hmoves, honly', hlive'⟩ := ih ⟨honly.peer, hlive⟩ (by simp) hrest
      refine ⟨hloop', first ++ inputs, s', ?_, honly.trans honly', hlive'⟩
      rw [moveAll_append hfirst]
      exact hmoves

/-- Up to the loop nothing is written to a good peer. -/
theorem greet_cases {talk : Talk σ} (hrun : greet net me peer = some talk) :
    talk.loop = none ∧ talk.peer = { peer with status := .bad } ∨
      talk.loop ≠ none ∧ talk.peer = peer := by
  unfold greet at hrun
  split_ifs at hrun
  · exact .inl (by obtain rfl := Option.some.inj hrun; exact ⟨rfl, rfl⟩)
  · exact .inl (by obtain rfl := Option.some.inj hrun; exact ⟨rfl, rfl⟩)
  · simp only [Option.bind_eq_bind, Option.bind_eq_some_iff] at hrun
    obtain ⟨⟨_, sent⟩, -, ⟨_, received, stream⟩, -, hend⟩ := hrun
    by_cases hgood : isGood (handshakeOut me) received = true
    · rw [if_pos hgood] at hend
      obtain rfl := Option.some.inj hend
      exact .inr ⟨by simp, rfl⟩
    · rw [if_neg hgood] at hend
      obtain rfl := Option.some.inj hend
      exact .inl ⟨rfl, rfl⟩

/-- **A call of `peer_communication` is a sequence of moves** of its thread, among those of the other
threads: from before the call to the loop, or to what comes after the call. It writes to its peer
only, and leaves it with a bitfield that is not freed, as it found it. -/
theorem talk_simulated (t : Nat) {p : UInt64} {s : Shared} (hpeer : s.Holds p peer)
    {fresh : List (PeerMessage × (Nat → Nat → UInt8))} {talk : Talk σ}
    (hrun : peerCommunication net me peer fresh = some talk) :
    ∃ (inputs : List Input) (s' : Shared),
      moveAll t (s, .connect p) inputs =
        some (s', if talk.loop.isSome then .talk p else scanFor (.count ⟨none, 0⟩)) ∧
      OnlyPeer p talk.peer s s' ∧ p ∉ s'.freed := by
  rw [peerCommunication, Option.bind_eq_bind, Option.bind_eq_some_iff] at hrun
  obtain ⟨talk₁, hgreet, hrest⟩ := hrun
  rcases greet_cases hgreet with ⟨hnone, hbad⟩ | ⟨hloop, hsame⟩
  · obtain rfl : talk₁ = talk := by
      obtain ⟨q, sent, rest⟩ := talk₁
      obtain rfl : rest = none := hnone
      obtain rfl : q = _ := hbad
      exact Option.some.inj ((hearAll_giveUp net.recv fresh sent).symm.trans hrest)
    refine ⟨[.refused], s.setPeer p talk₁.peer, ?_, onlyPeer_setPeer hpeer.peer _, hpeer.live⟩
    rw [moveAll_cons _ (.refuse hpeer.peer), hnone, hbad]
    rfl
  · rw [← hsame] at hpeer
    obtain ⟨hloop', inputs, s', hmoves, honly, hlive⟩ := hearAll_simulated t hpeer hloop hrest
    refine ⟨.accepted :: inputs, s', ?_, honly, hlive⟩
    rw [Option.isSome_iff_ne_none.mpr hloop', if_pos rfl, moveAll_cons _ (.accept p)]
    exact hmoves

/-- What the threads share, with one peer. -/
def onePeer : Shared := ⟨⟨LinkedList.listNew 8, [(4096, newPeer 1 6881 .inUse)]⟩, [], []⟩

/-- A good peer is talked to. -/
theorem talk_simulated_example :
    ∃ (talk : Talk (List UInt8)) (inputs : List Input) (s' : Shared),
      moveAll 0 (onePeer, .connect 4096) inputs =
        some (s', if talk.loop.isSome then .talk 4096 else scanFor (.count ⟨none, 0⟩)) ∧
      OnlyPeer 4096 talk.peer onePeer s' ∧ 4096 ∉ s'.freed := by
  have hfresh : (List.replicate 3 ((⟨.msgUnknown, 9, 9, 9, [9], [9]⟩ : PeerMessage),
      fun (_ _ : Nat) => (9 : UInt8))).length = someMessages.length := rfl
  obtain ⟨q, hrun, -⟩ := @talk_of_good _ (wire _) _ _ 1 6881 _ _ someIdentity (wire_opens _ 1 6881)
    someGood_sendable someMessages_fit hfresh someMessages_delivered ⟨rfl, rfl⟩
  exact ⟨_, talk_simulated 0 ⟨rfl, List.not_mem_nil⟩ hrun⟩

end Flood.Client
