import Flood.Peer.Message

/-!
# Peer messages on the wire

* `Message` — what a message says, and `Message.encode`, the frame that says it: a length prefix in
  network order, the id, the fields.
* `PeerMessage.content` — the message a `peer_message` struct holds, read by its type.
* `sendPeerMessage_spec` — a sendable struct is sent as the frame of its content.
* `receivePeerMessage_of_chunks` — the frame of a message is received as that message, and nothing
  else is taken off the stream.
* `send_receive_all` — sequences of messages survive the stream.
* `receive_takes_frame_iff` — which frames of a foreign peer are taken off the stream whole and
  counted.
-/

namespace Flood.Peer

open Flood.Lib

/-! ## Messages and their frames -/

/-- What a message with an id says. Payloads come with the length field that announces them. -/
inductive Message where
  | choke
  | unchoke
  | interested
  | notInterested
  /-- The sender has the piece. -/
  | hasPiece (index : UInt32)
  /-- The pieces the sender has. -/
  | bitfield (length : UInt32) (bits : List UInt8)
  /-- A block is asked for. -/
  | request (index start length : UInt32)
  /-- A block. -/
  | piece (index start length : UInt32) (data : List UInt8)
  /-- A block is no longer asked for. -/
  | cancel (index start length : UInt32)
  deriving DecidableEq

namespace Message

/-- The id and the fields. -/
def body : Message → List UInt8
  | choke => [0]
  | unchoke => [1]
  | interested => [2]
  | notInterested => [3]
  | hasPiece index => 4 :: networkBytes index
  | bitfield _ bits => 5 :: bits
  | request index start length =>
      6 :: (networkBytes index ++ networkBytes start ++ networkBytes length)
  | piece index start _ data => 7 :: (networkBytes index ++ networkBytes start ++ data)
  | cancel index start length =>
      8 :: (networkBytes index ++ networkBytes start ++ networkBytes length)

/-- The frame: the length of the body, and the body. -/
def encode (m : Message) : List UInt8 := networkBytes (UInt32.ofNat m.body.length) ++ m.body

/-- The id. -/
def id : Message → UInt8
  | choke => 0
  | unchoke => 1
  | interested => 2
  | notInterested => 3
  | hasPiece _ => 4
  | bitfield _ _ => 5
  | request _ _ _ => 6
  | piece _ _ _ _ => 7
  | cancel _ _ _ => 8

/-- The fields, each as it is received. -/
def fields : Message → List (List UInt8)
  | choke | unchoke | interested | notInterested => []
  | hasPiece index => [networkBytes index]
  | bitfield _ bits => [bits]
  | request index start length | cancel index start length =>
      [networkBytes index, networkBytes start, networkBytes length]
  | piece index start _ data => [networkBytes index, networkBytes start, data]

/-- The frame in chunks, one for each `recv`. -/
def chunks (m : Message) : List (List UInt8) :=
  networkBytes (UInt32.ofNat m.body.length) :: [m.id] :: m.fields

/-- The chunks of a message make up its frame. -/
theorem flatten_chunks (m : Message) : m.chunks.flatten = m.encode := by
  cases m <;> simp [chunks, encode, body, id, fields]

/-- The payload is as long as its length field says, and the length of the body is a 32-bit
number. -/
def Fits : Message → Prop
  | bitfield length bits => bits.length = length.toNat ∧ 1 + length.toNat < 2 ^ 32
  | piece _ _ length data => data.length = length.toNat ∧ 9 + length.toNat < 2 ^ 32
  | _ => True

end Message

/-- The message a struct holds, if its type has an id: the fields of its type, and of a payload
buffer as many bytes as its length field says. -/
def PeerMessage.content (msg : PeerMessage) : Option Message :=
  match msg.type with
  | .msgKeepalive => none
  | .msgChoke => some .choke
  | .msgUnchoke => some .unchoke
  | .msgInterested => some .interested
  | .msgNotInterested => some .notInterested
  | .msgHave => some (.hasPiece msg.word0)
  | .msgBitfield => some (.bitfield msg.word0 (msg.bitfield.take msg.word0.toNat))
  | .msgRequest => some (.request msg.word0 msg.word1 msg.word2)
  | .msgPiece => some (.piece msg.word0 msg.word1 msg.word2 (msg.data.take msg.word2.toNat))
  | .msgCancel => some (.cancel msg.word0 msg.word1 msg.word2)
  | .msgUnknown => none

/-- The struct is of a kind with an id, its payload buffer has as many bytes as its length field
says, and the length of the frame does not wrap. -/
def PeerMessage.Sendable (msg : PeerMessage) : Prop :=
  match msg.type with
  | .msgKeepalive | .msgUnknown => False
  | .msgBitfield => msg.word0.toNat ≤ msg.bitfield.length ∧ 1 + msg.word0.toNat < 2 ^ 32
  | .msgPiece => msg.word2.toNat ≤ msg.data.length ∧ 9 + msg.word2.toNat < 2 ^ 32
  | _ => True

/-- A sendable struct holds a message that fits. -/
theorem PeerMessage.Sendable.exists_content {msg : PeerMessage} (h : msg.Sendable) :
    ∃ m, msg.content = some m ∧ m.Fits := by
  unfold PeerMessage.Sendable at h
  unfold PeerMessage.content
  cases htype : msg.type
  all_goals simp only [htype] at h ⊢
  case msgBitfield =>
    exact ⟨_, rfl, by rw [List.length_take, Nat.min_eq_left h.1], h.2⟩
  case msgPiece =>
    exact ⟨_, rfl, by rw [List.length_take, Nat.min_eq_left h.1], h.2⟩
  all_goals exact ⟨_, rfl, trivial⟩

/-- Sendable structs hold messages that fit. -/
theorem exists_contents {msgs : List PeerMessage} (hs : ∀ msg ∈ msgs, msg.Sendable) :
    ∃ ms : List Message, msgs.map PeerMessage.content = ms.map some ∧ ∀ m ∈ ms, m.Fits := by
  induction msgs with
  | nil => exact ⟨[], rfl, by simp⟩
  | cons msg msgs ih =>
    obtain ⟨m, hm, hfit⟩ := (hs msg List.mem_cons_self).exists_content
    obtain ⟨ms, hms, hfits⟩ := ih fun msg hmsg => hs msg (List.mem_cons_of_mem _ hmsg)
    refine ⟨m :: ms, by rw [List.map_cons, hm, hms, List.map_cons], ?_⟩
    exact List.forall_mem_cons.mpr ⟨hfit, hfits⟩

/-! ## Sending -/

@[simp] theorem length_networkBytes (x : UInt32) : (networkBytes x).length = 4 := rfl

/-- `ntohl` of the bytes that `htonl` has written. -/
@[simp] theorem bswap32_leWord_networkBytes (x : UInt32) : bswap32 (leWord (networkBytes x)) = x := by
  rw [networkBytes, leWord_leBytes, bswap32_bswap32]

/-- A buffer with enough bytes is sent up to the length. -/
theorem sendBuffer_of_le {sock buffer : List UInt8} {n : UInt32} (h : n.toNat ≤ buffer.length) :
    sendBuffer sock buffer n = some (send sock (buffer.take n.toNat)) :=
  if_pos h

/-- The length of a frame with a payload, computed without wrapping. -/
theorem ofNat_add_toNat (k : Nat) (w : UInt32) : UInt32.ofNat (k + w.toNat) = UInt32.ofNat k + w := by
  rw [UInt32.ofNat_add, UInt32.ofNat_toNat]

/-- A length that does not wrap and counts the id is not zero. -/
theorem add_ne_zero {k : Nat} {w : UInt32} (hk : 0 < k) (h : k + w.toNat < 2 ^ 32) :
    UInt32.ofNat k + w ≠ 0 := by
  intro h0
  rw [← ofNat_add_toNat] at h0
  have := congrArg UInt32.toNat h0
  rw [UInt32.toNat_ofNat_of_lt' h] at this
  have hzero : (0 : UInt32).toNat = 0 := rfl
  omega

/-- **A sendable struct is sent as the frame of its content**, and the count is the length of the
frame. -/
theorem sendPeerMessage_spec (junkId : UInt8) {msg : PeerMessage} (h : msg.Sendable) {m : Message}
    (hm : msg.content = some m) (sock : List UInt8) :
    sendPeerMessage junkId msg sock = some ((m.encode.length : Int), sock ++ m.encode) := by
  unfold PeerMessage.Sendable at h
  unfold PeerMessage.content at hm
  unfold sendPeerMessage messageHeader
  cases htype : msg.type
  all_goals simp only [htype] at h hm ⊢
  all_goals obtain rfl := Option.some.inj hm
  case msgBitfield =>
    have hne : (1 : UInt32) + msg.word0 ≠ 0 := add_ne_zero Nat.one_pos h.2
    have hlen : UInt32.ofNat ((5 :: msg.bitfield.take msg.word0.toNat).length) = 1 + msg.word0 := by
      rw [List.length_cons, List.length_take, Nat.min_eq_left h.1, Nat.add_comm, ofNat_add_toNat]
      rfl
    rw [if_neg hne, sendBuffer_of_le h.1]
    simp [Message.encode, Message.body, send, ← hlen]
    omega
  case msgPiece =>
    have hne : (9 : UInt32) + msg.word2 ≠ 0 := add_ne_zero (by decide) h.2
    have hlen : UInt32.ofNat ((Message.piece msg.word0 msg.word1 msg.word2
        (msg.data.take msg.word2.toNat)).body.length) = 9 + msg.word2 := by
      rw [Message.body, List.length_cons, List.length_append, List.length_append,
        length_networkBytes, length_networkBytes, List.length_take, Nat.min_eq_left h.1,
        show 4 + 4 + msg.word2.toNat + 1 = 9 + msg.word2.toNat by omega, ofNat_add_toNat]
      rfl
    rw [if_neg hne, sendBuffer_of_le h.1, Message.encode, hlen]
    simp [Message.body, send]
    omega
  all_goals
    rw [if_neg (by decide)]
    simp [Message.encode, Message.body, send]

/-! ## Receiving -/

section Fields

variable {σ : Type} (recv : Recv σ) (junk : Nat → Nat → UInt8) (L : UInt32) (msg : PeerMessage) (s : σ)

/-- The branch of a `have`. -/
theorem receiveFields_have : receiveFields recv junk L 4 msg s =
    (recvWord recv (junk 2) s).map fun r => ({ msg with type := .msgHave, word0 := r.1 }, r.2) := by
  simp [receiveFields, Option.map_eq_bind]

/-- The branch of a bitfield. -/
theorem receiveFields_bitfield : receiveFields recv junk L 5 msg s =
    (recvInto recv (junk 2) (L - 1).toNat s).map fun r =>
      ({ msg with type := .msgBitfield, word0 := L - 1, bitfield := r.2.1 }, r.2.2) := by
  simp [receiveFields, Option.map_eq_bind]

/-- The branch that a request and a cancel share. -/
theorem receiveFields_request {id : UInt8} (hid : id = 6 ∨ id = 8) :
    receiveFields recv junk L id msg s =
      (recvWord recv (junk 2) s).bind fun r0 =>
        (recvWord recv (junk 3) r0.2).bind fun r1 =>
          (recvWord recv (junk 4) r1.2).map fun r2 =>
            ({ msg with
              type := if id = 6 then .msgRequest else .msgCancel
              word0 := r0.1, word1 := r1.1, word2 := r2.1 }, r2.2) := by
  rcases hid with rfl | rfl
  all_goals simp [receiveFields, Option.map_eq_bind]

/-- The branch of a piece. -/
theorem receiveFields_piece : receiveFields recv junk L 7 msg s =
    (recvWord recv (junk 2) s).bind fun r0 =>
      (recvWord recv (junk 3) r0.2).bind fun r1 =>
        (recvInto recv (junk 4) (L - 9).toNat r1.2).map fun r2 =>
          ({ msg with
            type := .msgPiece
            word0 := r0.1, word1 := r1.1, word2 := L - 9, data := r2.2.1 }, r2.2.2) := by
  simp [receiveFields, Option.map_eq_bind]

/-- The branches of the ids that have no fields for the source read nothing more. -/
theorem receiveFields_other {id : UInt8} (hid : id ∉ ([4, 5, 6, 7, 8] : List UInt8)) :
    ∃ type, type ≠ .msgBitfield ∧ type ≠ .msgPiece ∧
      receiveFields recv junk L id msg s = some ({ msg with type := type }, s) := by
  simp only [List.mem_cons, List.not_mem_nil, or_false, not_or] at hid
  obtain ⟨h4, h5, h6, h7, h8⟩ := hid
  unfold receiveFields
  rw [if_neg h4, if_neg h5, if_neg (not_or.mpr ⟨h6, h8⟩), if_neg h7]
  split_ifs
  all_goals exact ⟨_, by decide, by decide, rfl⟩

end Fields

/-! ### Bytes that come whole -/

section Delivery

variable {σ : Type} {recv : Recv σ} {s s' s₁ : σ} {bs : List UInt8} {chunks chunks' : List (List UInt8)}

/-- The next `recv`, asked for as many bytes, writes these bytes. -/
def Delivers (recv : Recv σ) (s : σ) (bs : List UInt8) (s' : σ) : Prop :=
  ∀ junk : Nat → UInt8, recvInto recv junk bs.length s = some ((bs.length : Int), bs, s')

/-- The next calls of `recv`, each asked for the length of its chunk, write the chunks. -/
inductive DeliversAll (recv : Recv σ) : σ → List (List UInt8) → σ → Prop
  | nil (s : σ) : DeliversAll recv s [] s
  | cons {s s₁ s' : σ} {bs : List UInt8} {chunks : List (List UInt8)} (h : Delivers recv s bs s₁)
      (hs : DeliversAll recv s₁ chunks s') : DeliversAll recv s (bs :: chunks) s'

/-- The first chunk, and the others. -/
theorem deliversAll_cons_iff : DeliversAll recv s (bs :: chunks) s' ↔
    ∃ s₁, Delivers recv s bs s₁ ∧ DeliversAll recv s₁ chunks s' := by
  constructor
  · rintro (_ | ⟨h, hs⟩)
    exact ⟨_, h, hs⟩
  · rintro ⟨s₁, h, hs⟩
    exact .cons h hs

/-- Some chunks, and the others. -/
theorem deliversAll_append_iff : DeliversAll recv s (chunks ++ chunks') s' ↔
    ∃ s₁, DeliversAll recv s chunks s₁ ∧ DeliversAll recv s₁ chunks' s' := by
  induction chunks generalizing s with
  | nil =>
      constructor
      · exact fun h => ⟨s, .nil s, h⟩
      · rintro ⟨_, ⟨⟩, h⟩
        exact h
  | cons bs chunks ih =>
      rw [List.cons_append, deliversAll_cons_iff]
      simp only [ih, deliversAll_cons_iff]
      constructor
      · rintro ⟨s₁, h, s₂, hs, hs'⟩
        exact ⟨s₂, ⟨s₁, h, hs⟩, hs'⟩
      · rintro ⟨s₂, ⟨s₁, h, hs⟩, hs'⟩
        exact ⟨s₁, h, s₂, hs, hs'⟩

/-- A number is received as it was sent. -/
theorem recvWord_of_delivers {x : UInt32} (h : Delivers recv s (networkBytes x) s')
    (junk : Nat → UInt8) : recvWord recv junk s = some (x, s') := by
  have hinto : recvInto recv junk 4 s = some (((4 : Nat) : Int), networkBytes x, s') := h junk
  rw [recvWord, hinto]
  simp

/-- The prefix and the id come whole, then the fields are read. -/
theorem receivePeerMessage_of_delivers {L : UInt32} {id : UInt8}
    (hpre : Delivers recv s (networkBytes L) s₁) (hid : Delivers recv s₁ [id] s')
    (junk : Nat → Nat → UInt8) (msg : PeerMessage) :
    receivePeerMessage recv junk msg s =
      (receiveFields recv junk L id
        (if L = 0 then { msg with type := .msgKeepalive } else msg) s').map fun r => (5, r) := by
  have hp : recvInto recv (junk 0) 4 s = some (((4 : Nat) : Int), networkBytes L, s₁) :=
    hpre (junk 0)
  have hi : recvInto recv (junk 1) 1 s₁ = some (((1 : Nat) : Int), [id], s') := hid (junk 1)
  rw [receivePeerMessage, hp]
  simp only [Option.bind_eq_bind, Option.bind_some, hi, bswap32_leWord_networkBytes,
    List.headD_cons]
  cases receiveFields recv junk L id
    (if L = 0 then { msg with type := .msgKeepalive } else msg) s' <;> rfl

/-- The length field is what the prefix leaves for it. -/
theorem ofNat_add_toNat_sub (k : Nat) (w : UInt32) :
    UInt32.ofNat (k + w.toNat) - UInt32.ofNat k = w := by
  rw [ofNat_add_toNat, UInt32.add_comm, UInt32.add_sub_cancel]

/-- The length field of a bitfield, from the prefix. -/
theorem bitfield_prefix_sub {length : UInt32} {bits : List UInt8}
    (h : (Message.bitfield length bits).Fits) :
    UInt32.ofNat (Message.bitfield length bits).body.length - 1 = length := by
  rw [Message.body, List.length_cons, h.1, Nat.add_comm]
  exact ofNat_add_toNat_sub 1 length

/-- The length field of a piece, from the prefix. -/
theorem piece_prefix_sub {index start length : UInt32} {data : List UInt8}
    (h : (Message.piece index start length data).Fits) :
    UInt32.ofNat (Message.piece index start length data).body.length - 9 = length := by
  have hsum : (Message.piece index start length data).body.length = 9 + length.toNat := by
    simp only [Message.body, List.length_cons, List.length_append, length_networkBytes, h.1]
    omega
  rw [hsum]
  exact ofNat_add_toNat_sub 9 length

/-- The fields of a message that come whole are received as its fields. -/
theorem receiveFields_of_delivers {m : Message} (h : m.Fits) (hs : DeliversAll recv s m.fields s')
    (junk : Nat → Nat → UInt8) (msg : PeerMessage) :
    ∃ msg', receiveFields recv junk (UInt32.ofNat m.body.length) m.id msg s = some (msg', s') ∧
      msg'.content = some m := by
  cases m with
  | choke | unchoke | interested | notInterested =>
    cases hs
    exact ⟨_, rfl, rfl⟩
  | hasPiece index =>
    obtain ⟨s₁, h0, ⟨⟩⟩ := deliversAll_cons_iff.mp hs
    rw [Message.id, receiveFields_have, recvWord_of_delivers h0]
    exact ⟨_, rfl, rfl⟩
  | bitfield length bits =>
    obtain ⟨s₁, h0, ⟨⟩⟩ := deliversAll_cons_iff.mp hs
    rw [Message.id, receiveFields_bitfield, bitfield_prefix_sub h, ← h.1, h0]
    refine ⟨_, rfl, ?_⟩
    show some (Message.bitfield length (bits.take length.toNat)) = _
    rw [← h.1, List.take_length]
  | request index start length | cancel index start length =>
    obtain ⟨s₁, h0, hs⟩ := deliversAll_cons_iff.mp hs
    obtain ⟨s₂, h1, hs⟩ := deliversAll_cons_iff.mp hs
    obtain ⟨s₃, h2, ⟨⟩⟩ := deliversAll_cons_iff.mp hs
    rw [Message.id, receiveFields_request _ _ _ _ _ (by simp)]
    simp only [recvWord_of_delivers h0, recvWord_of_delivers h1, recvWord_of_delivers h2,
      Option.bind_some]
    exact ⟨_, rfl, rfl⟩
  | piece index start length data =>
    obtain ⟨s₁, h0, hs⟩ := deliversAll_cons_iff.mp hs
    obtain ⟨s₂, h1, hs⟩ := deliversAll_cons_iff.mp hs
    obtain ⟨s₃, h2, ⟨⟩⟩ := deliversAll_cons_iff.mp hs
    rw [Message.id, receiveFields_piece, piece_prefix_sub h]
    simp only [recvWord_of_delivers h0, recvWord_of_delivers h1, Option.bind_some]
    rw [← h.1, h2]
    refine ⟨_, rfl, ?_⟩
    show some (Message.piece index start length (data.take length.toNat)) = _
    rw [← h.1, List.take_length]

/-- **A message whose chunks come whole is received as the message**, whatever the struct and the
local buffers hold before. -/
theorem receivePeerMessage_of_chunks {m : Message} (h : m.Fits)
    (hs : DeliversAll recv s m.chunks s') (junk : Nat → Nat → UInt8) (msg : PeerMessage) :
    ∃ msg', receivePeerMessage recv junk msg s = some (5, msg', s') ∧ msg'.content = some m := by
  obtain ⟨s₁, hpre, hs⟩ := deliversAll_cons_iff.mp hs
  obtain ⟨s₂, hid, hs⟩ := deliversAll_cons_iff.mp hs
  obtain ⟨msg', hrun, hcontent⟩ := receiveFields_of_delivers h hs junk
    (if UInt32.ofNat m.body.length = 0 then { msg with type := .msgKeepalive } else msg)
  refine ⟨msg', ?_, hcontent⟩
  rw [receivePeerMessage_of_delivers hpre hid, hrun]
  rfl

/-- Messages whose chunks come whole are received in order. -/
theorem receiveAll_of_chunks {ms : List Message} (hm : ∀ m ∈ ms, m.Fits)
    {fresh : List (PeerMessage × (Nat → Nat → UInt8))} (hf : fresh.length = ms.length)
    (hs : DeliversAll recv s (ms.flatMap Message.chunks) s') :
    ∃ got, receiveAll recv fresh s = some (got, s') ∧ got.map PeerMessage.content = ms.map some := by
  induction ms generalizing fresh s with
  | nil =>
    obtain rfl := List.length_eq_zero_iff.mp hf
    cases hs
    exact ⟨[], rfl, rfl⟩
  | cons m ms ih =>
    obtain ⟨⟨msg, junk⟩, fresh, rfl⟩ : ∃ f fresh', fresh = f :: fresh' := by
      cases fresh with
      | nil => exact absurd hf (by simp)
      | cons f fresh => exact ⟨f, fresh, rfl⟩
    obtain ⟨s₁, hhead, htail⟩ := deliversAll_append_iff.mp hs
    obtain ⟨msg', hrun, hcontent⟩ :=
      receivePeerMessage_of_chunks (hm m List.mem_cons_self) hhead junk msg
    obtain ⟨got, hruns, hcontents⟩ :=
      ih (fun m hm' => hm m (List.mem_cons_of_mem _ hm')) (Nat.succ.inj hf) htail
    refine ⟨msg' :: got, ?_, ?_⟩
    · rw [receiveAll, hrun]
      simp [hruns]
    · rw [List.map_cons, hcontent, hcontents, List.map_cons]

end Delivery

variable {junk : Nat → UInt8} {bs rest : List UInt8}

/-- Bytes at the front of the stream come whole. -/
theorem delivers_full (bs rest : List UInt8) : Delivers recvFull (bs ++ rest) bs rest := fun _ => by
  simp [recvInto, recvFull]

/-- Chunks at the front of the stream come whole. -/
theorem deliversAll_full (chunks : List (List UInt8)) (rest : List UInt8) :
    DeliversAll recvFull (chunks.flatten ++ rest) chunks rest := by
  induction chunks with
  | nil => exact .nil _
  | cons bs chunks ih =>
    rw [List.flatten_cons, List.append_assoc]
    exact .cons (delivers_full bs _) ih

/-- The prefix and the id are taken off the stream, then the fields. -/
theorem receivePeerMessage_full (junk : Nat → Nat → UInt8) (msg : PeerMessage) (L : UInt32)
    (id : UInt8) (rest : List UInt8) :
    receivePeerMessage recvFull junk msg (networkBytes L ++ id :: rest) =
      (receiveFields recvFull junk L id
        (if L = 0 then { msg with type := .msgKeepalive } else msg) rest).map fun r => (5, r) :=
  receivePeerMessage_of_delivers (delivers_full _ _) (delivers_full [id] rest) junk msg

/-! ## Sequences -/

/-- Receiving in order, in two parts. -/
theorem receiveAll_append {σ : Type} (recv : Recv σ)
    (fresh fresh' : List (PeerMessage × (Nat → Nat → UInt8))) (s : σ) :
    receiveAll recv (fresh ++ fresh') s = (receiveAll recv fresh s).bind fun r =>
      (receiveAll recv fresh' r.2).map fun r' => (r.1 ++ r'.1, r'.2) := by
  induction fresh generalizing s with
  | nil => simp [receiveAll]
  | cons f fresh ih =>
    simp only [List.cons_append, receiveAll, ih, Option.bind_eq_bind, Option.bind_assoc]
    refine Option.bind_congr fun r _ => Option.bind_congr fun r₁ _ => ?_
    cases hr : receiveAll recv fresh' r₁.2 <;> simp [hr]

/-- **Sending in order** appends the frames in order. -/
theorem sendAll_spec (junkId : UInt8) {msgs : List PeerMessage} {ms : List Message}
    (hs : ∀ msg ∈ msgs, msg.Sendable) (hm : msgs.map PeerMessage.content = ms.map some)
    (sock : List UInt8) :
    sendAll junkId msgs sock = some (sock ++ (ms.map Message.encode).flatten) := by
  induction msgs generalizing ms sock with
  | nil =>
    obtain rfl : ms = [] := List.map_eq_nil_iff.mp hm.symm
    rw [sendAll, List.map_nil, List.flatten_nil, List.append_nil]
  | cons msg msgs ih =>
    obtain ⟨m, ms, rfl⟩ : ∃ m ms', ms = m :: ms' := by
      cases ms with
      | nil => exact absurd hm (by simp)
      | cons m ms => exact ⟨m, ms, rfl⟩
    obtain ⟨hhead, htail⟩ := List.cons.inj hm
    have hsend := sendPeerMessage_spec junkId (hs msg List.mem_cons_self) hhead sock
    have hrest := ih (fun msg hmsg => hs msg (List.mem_cons_of_mem _ hmsg)) htail (sock ++ m.encode)
    rw [sendAll, hsend]
    simpa [List.append_assoc] using hrest

/-- The chunks of messages make up their frames. -/
theorem flatten_flatMap_chunks (ms : List Message) :
    (ms.flatMap Message.chunks).flatten = (ms.map Message.encode).flatten := by
  induction ms with
  | nil => rfl
  | cons m ms ih =>
    rw [List.flatMap_cons, List.flatten_append, m.flatten_chunks, ih, List.map_cons,
      List.flatten_cons]

/-- **Receiving in order** reads the frames back and leaves what follows them. -/
theorem receiveAll_spec {ms : List Message} (hm : ∀ m ∈ ms, m.Fits)
    {fresh : List (PeerMessage × (Nat → Nat → UInt8))} (hf : fresh.length = ms.length)
    (rest : List UInt8) :
    ∃ got, receiveAll recvFull fresh ((ms.map Message.encode).flatten ++ rest) = some (got, rest) ∧
      got.map PeerMessage.content = ms.map some := by
  rw [← flatten_flatMap_chunks]
  exact receiveAll_of_chunks hm hf (deliversAll_full _ _)

/-- **Peer messages survive the stream.** Sendable messages, sent in order onto an empty stream and
received by as many calls, come back in order with the same contents and leave the stream empty,
whatever the structs and the local buffers of the receiving calls hold before. -/
theorem send_receive_all (junkId : UInt8) (msgs : List PeerMessage)
    (hs : ∀ msg ∈ msgs, msg.Sendable) (fresh : List (PeerMessage × (Nat → Nat → UInt8)))
    (hf : fresh.length = msgs.length) :
    ∃ stream got, sendAll junkId msgs [] = some stream ∧
      receiveAll recvFull fresh stream = some (got, []) ∧
      got.map PeerMessage.content = msgs.map PeerMessage.content := by
  obtain ⟨ms, hcontent, hfits⟩ := exists_contents hs
  have hlen : fresh.length = ms.length := by
    rw [hf, ← List.length_map (f := PeerMessage.content), hcontent, List.length_map]
  obtain ⟨got, hrun, hgot⟩ := receiveAll_spec hfits hlen []
  rw [List.append_nil] at hrun
  exact ⟨_, got, sendAll_spec junkId hs hcontent [], hrun, hgot.trans hcontent.symm⟩

/-- Three messages through the stream: a `have`, a bitfield of two bytes, a block of three. -/
theorem send_receive_all_example :
    ∃ stream got,
      sendAll 0 [⟨.msgHave, 7, 0, 0, [], []⟩, ⟨.msgBitfield, 2, 0, 0, [160, 1], []⟩,
        ⟨.msgPiece, 1, 16384, 3, [], [1, 2, 3]⟩] [] = some stream ∧
      receiveAll recvFull (List.replicate 3 (⟨.msgUnknown, 9, 9, 9, [9], [9]⟩, fun _ _ => 9))
        stream = some (got, []) ∧
      got.map PeerMessage.content =
        [⟨.msgHave, 7, 0, 0, [], []⟩, ⟨.msgBitfield, 2, 0, 0, [160, 1], []⟩,
          ⟨.msgPiece, 1, 16384, 3, [], [1, 2, 3]⟩].map PeerMessage.content := by
  refine send_receive_all 0 _ (fun msg hmsg => ?_) _ rfl
  simp only [List.mem_cons, List.not_mem_nil, or_false] at hmsg
  rcases hmsg with rfl | rfl | rfl
  · trivial
  · exact ⟨by decide, by decide⟩
  · exact ⟨by decide, by decide⟩

/-! ## Frames of a foreign peer -/

/-- The number of bytes that the source asks for after the id. -/
def fieldBytes (L : UInt32) (id : UInt8) : Nat :=
  if id = 4 then 4
  else if id = 5 then (L - 1).toNat
  else if id = 6 ∨ id = 8 then 12
  else if id = 7 then 8 + (L - 9).toNat
  else 0

/-- Bytes that are on the stream are received. -/
theorem recvInto_of_le (junk : Nat → UInt8) {n : Nat} {s : List UInt8} (h : n ≤ s.length) :
    recvInto recvFull junk n s = some ((n : Int), s.take n, s.drop n) := by
  have hlen : (s.take n).length = n := by rw [List.length_take, Nat.min_eq_left h]
  have := delivers_full (s.take n) (s.drop n) junk
  rwa [List.take_append_drop, hlen] at this

/-- Bytes that are not on the stream are waited for. -/
theorem recvInto_eq_none {n : Nat} {s : List UInt8} (h : s.length < n) :
    recvInto recvFull junk n s = none := by
  rw [recvInto, recvFull, if_neg (by omega)]
  rfl

/-- A number that is on the stream is received. -/
theorem recvWord_of_le (junk : Nat → UInt8) {s : List UInt8} (h : 4 ≤ s.length) :
    ∃ x, recvWord recvFull junk s = some (x, s.drop 4) := by
  rw [recvWord, recvInto_of_le junk h]
  exact ⟨_, rfl⟩

/-- A number that is not on the stream is waited for. -/
theorem recvWord_eq_none {s : List UInt8} (h : s.length < 4) : recvWord recvFull junk s = none := by
  rw [recvWord, recvInto_eq_none h]
  rfl

/-- A number and what follows are waited for if not all of it is there. -/
theorem recvWord_bind_eq_none {β : Type} {f : UInt32 × List UInt8 → Option β} {n : Nat}
    {s : List UInt8} (h : s.length < 4 + n) (hf : ∀ x s', s'.length < n → f (x, s') = none) :
    (recvWord recvFull junk s).bind f = none := by
  by_cases h4 : 4 ≤ s.length
  · obtain ⟨x, hx⟩ := recvWord_of_le junk h4
    have hrest : (s.drop 4).length < n := by
      rw [List.length_drop]
      omega
    rw [hx, Option.bind_some]
    exact hf x _ hrest
  · rw [recvWord_eq_none (not_le.mp h4)]
    rfl

/-- A request and a cancel have three numbers. -/
theorem fieldBytes_request (L : UInt32) {id : UInt8} (hid : id = 6 ∨ id = 8) :
    fieldBytes L id = 12 := by
  rcases hid with rfl | rfl <;> rfl

/-- The other ids have no fields. -/
theorem fieldBytes_other (L : UInt32) {id : UInt8} (hid : id ∉ ([4, 5, 6, 7, 8] : List UInt8)) :
    fieldBytes L id = 0 := by
  simp only [List.mem_cons, List.not_mem_nil, or_false, not_or] at hid
  obtain ⟨h4, h5, h6, h7, h8⟩ := hid
  rw [fieldBytes, if_neg h4, if_neg h5, if_neg (not_or.mpr ⟨h6, h8⟩), if_neg h7]

/-- An id has no fields, or is one of the five that have. -/
theorem id_cases (id : UInt8) :
    id = 4 ∨ id = 5 ∨ (id = 6 ∨ id = 8) ∨ id = 7 ∨ id ∉ ([4, 5, 6, 7, 8] : List UInt8) := by
  simp only [List.mem_cons, List.not_mem_nil, or_false, not_or]
  tauto

/-- The fields are received if the stream has the bytes asked for. -/
theorem receiveFields_of_le (junk : Nat → Nat → UInt8) (L : UInt32) (id : UInt8) (msg : PeerMessage)
    {s : List UInt8} (h : fieldBytes L id ≤ s.length) :
    ∃ msg', receiveFields recvFull junk L id msg s = some (msg', s.drop (fieldBytes L id)) := by
  rcases id_cases id with rfl | rfl | hid | rfl | hid
  · obtain ⟨x, hx⟩ := recvWord_of_le (junk 2) h
    rw [receiveFields_have, hx]
    exact ⟨_, rfl⟩
  · have hle : (L - 1).toNat ≤ s.length := h
    rw [receiveFields_bitfield, recvInto_of_le _ hle]
    exact ⟨_, rfl⟩
  · rw [fieldBytes_request L hid] at h ⊢
    obtain ⟨x, hx⟩ := recvWord_of_le (junk 2) (s := s) (by omega)
    obtain ⟨y, hy⟩ := recvWord_of_le (junk 3) (s := s.drop 4) (by simp; omega)
    obtain ⟨z, hz⟩ := recvWord_of_le (junk 4) (s := (s.drop 4).drop 4) (by simp; omega)
    rw [receiveFields_request _ _ _ _ _ hid]
    simp only [hx, hy, hz, Option.bind_some, Option.map_some]
    rw [List.drop_drop, List.drop_drop]
    exact ⟨_, rfl⟩
  · have hle : 8 + (L - 9).toNat ≤ s.length := h
    obtain ⟨x, hx⟩ := recvWord_of_le (junk 2) (s := s) (by omega)
    obtain ⟨y, hy⟩ := recvWord_of_le (junk 3) (s := s.drop 4) (by simp; omega)
    have hdata : (L - 9).toNat ≤ ((s.drop 4).drop 4).length := by
      simp
      omega
    rw [receiveFields_piece]
    simp only [hx, hy, recvInto_of_le _ hdata, Option.bind_some, Option.map_some]
    rw [List.drop_drop, List.drop_drop]
    exact ⟨_, rfl⟩
  · obtain ⟨type, -, -, hrun⟩ := receiveFields_other recvFull junk L msg s hid
    rw [hrun, fieldBytes_other L hid]
    exact ⟨_, rfl⟩

/-- The fields are waited for if the stream does not have the bytes asked for. -/
theorem receiveFields_eq_none (junk : Nat → Nat → UInt8) (L : UInt32) (id : UInt8)
    (msg : PeerMessage) {s : List UInt8} (h : s.length < fieldBytes L id) :
    receiveFields recvFull junk L id msg s = none := by
  rcases id_cases id with rfl | rfl | hid | rfl | hid
  · rw [receiveFields_have, recvWord_eq_none h]
    rfl
  · have hlt : s.length < (L - 1).toNat := h
    rw [receiveFields_bitfield, recvInto_eq_none hlt]
    rfl
  · rw [fieldBytes_request L hid] at h
    rw [receiveFields_request _ _ _ _ _ hid]
    refine recvWord_bind_eq_none (n := 8) h fun x s₁ h₁ => ?_
    refine recvWord_bind_eq_none (n := 4) h₁ fun y s₂ h₂ => ?_
    rw [recvWord_eq_none h₂]
    rfl
  · have hlt : s.length < 4 + (4 + (L - 9).toNat) := by
      rw [← Nat.add_assoc]
      exact h
    rw [receiveFields_piece]
    refine recvWord_bind_eq_none hlt fun x s₁ h₁ => ?_
    refine recvWord_bind_eq_none h₁ fun y s₂ h₂ => ?_
    rw [recvInto_eq_none h₂]
    rfl
  · rw [fieldBytes_other L hid] at h
    exact absurd h (Nat.not_lt_zero _)

/-- **What one call takes off the stream**: the prefix, the id, and the fields of the id, if all of
them are there. The count is `5` in every case. -/
theorem receivePeerMessage_eq_some_iff (junk : Nat → Nat → UInt8) (msg : PeerMessage) (L : UInt32)
    (id : UInt8) (tail s : List UInt8) (ret : Int) :
    (∃ msg', receivePeerMessage recvFull junk msg (networkBytes L ++ id :: tail) =
        some (ret, msg', s)) ↔
      ret = 5 ∧ fieldBytes L id ≤ tail.length ∧ s = tail.drop (fieldBytes L id) := by
  rw [receivePeerMessage_full]
  by_cases h : fieldBytes L id ≤ tail.length
  · obtain ⟨msg', hrun⟩ := receiveFields_of_le junk L id
      (if L = 0 then { msg with type := .msgKeepalive } else msg) h
    rw [hrun]
    simp only [Option.map_some, Option.some.injEq, Prod.mk.injEq]
    constructor
    · rintro ⟨_, rfl, _, rfl⟩
      exact ⟨rfl, h, rfl⟩
    · rintro ⟨rfl, _, rfl⟩
      exact ⟨msg', rfl, rfl, rfl⟩
  · rw [receiveFields_eq_none junk L id _ (not_le.mp h)]
    simp [h]

/-- Without an id the call does not return. -/
theorem receivePeerMessage_eq_none (junk : Nat → Nat → UInt8) (msg : PeerMessage) (L : UInt32) :
    receivePeerMessage recvFull junk msg (networkBytes L) = none := by
  have hpre : recvInto recvFull (junk 0) 4 (networkBytes L) =
      some (((4 : Nat) : Int), networkBytes L, []) := delivers_full (networkBytes L) [] (junk 0)
  have hid : recvInto recvFull (junk 1) 1 [] = none := recvInto_eq_none (by decide)
  rw [receivePeerMessage, hpre]
  simp only [Option.bind_eq_bind, Option.bind_some, hid, Option.bind_none]

/-- A call that returns has taken an id, and leaves less than what follows the prefix. -/
theorem receive_rest_of_eq_some (junk : Nat → Nat → UInt8) (msg msg' : PeerMessage) (L : UInt32)
    (tail s : List UInt8) (ret : Int)
    (hrun : receivePeerMessage recvFull junk msg (networkBytes L ++ tail) = some (ret, msg', s)) :
    ∃ id tail', tail = id :: tail' ∧ ret = 5 ∧ fieldBytes L id ≤ tail'.length ∧
      s = tail'.drop (fieldBytes L id) := by
  cases tail with
  | nil =>
    rw [List.append_nil, receivePeerMessage_eq_none] at hrun
    exact absurd hrun (by simp)
  | cons id tail =>
    exact ⟨id, tail, rfl, (receivePeerMessage_eq_some_iff junk msg L id tail s ret).mp ⟨msg', hrun⟩⟩

/-- **When a frame is taken off the stream whole.** Its payload must be as long as the fields that
the source reads for its id; a keep-alive never is. -/
theorem receive_consumes_frame_iff (junk : Nat → Nat → UInt8) (msg : PeerMessage) (L : UInt32)
    (body rest : List UInt8) :
    (∃ ret msg', receivePeerMessage recvFull junk msg (networkBytes L ++ body ++ rest) =
        some (ret, msg', rest)) ↔
      ∃ id fields, body = id :: fields ∧ fields.length = fieldBytes L id := by
  rw [List.append_assoc]
  constructor
  · rintro ⟨ret, msg', hrun⟩
    obtain ⟨id, tail, htail, _, hle, hrest⟩ := receive_rest_of_eq_some junk msg msg' L _ _ _ hrun
    have hlen := congrArg List.length hrest
    rw [List.length_drop] at hlen
    cases body with
    | nil =>
      rw [List.nil_append] at htail
      rw [htail, List.length_cons] at hlen
      omega
    | cons id' fields =>
      rw [List.cons_append] at htail
      obtain ⟨rfl, rfl⟩ := List.cons.inj htail
      refine ⟨id', fields, rfl, ?_⟩
      rw [List.length_append] at hlen hle
      omega
  · rintro ⟨id, fields, rfl, hlen⟩
    refine ⟨5, (receivePeerMessage_eq_some_iff junk msg L id (fields ++ rest) rest 5).mpr
      ⟨rfl, ?_, ?_⟩⟩
    · rw [List.length_append]
      omega
    · rw [← hlen, List.drop_left]

/-- **When framing is kept**: a frame with length prefix `L` and body `body`, whatever follows it,
is taken off the stream whole and counted as `4 + L` bytes iff it is one byte long and this byte is
none of the ids with fields of fixed length. -/
theorem receive_takes_frame_iff (junk : Nat → Nat → UInt8) (msg : PeerMessage) (L : UInt32)
    (body rest : List UInt8) (hbody : body.length = L.toNat) :
    (∃ msg', receivePeerMessage recvFull junk msg (networkBytes L ++ body ++ rest) =
        some (4 + (L.toNat : Int), msg', rest)) ↔
      L = 1 ∧ ∀ id ∈ body, id ∉ ([4, 6, 7, 8] : List UInt8) := by
  constructor
  · rintro ⟨msg', hrun⟩
    obtain ⟨id, fields, rfl, hlen⟩ :=
      (receive_consumes_frame_iff junk msg L body rest).mp ⟨_, msg', hrun⟩
    rw [List.append_assoc] at hrun
    obtain ⟨_, _, _, hret, _, _⟩ := receive_rest_of_eq_some junk msg msg' L _ _ _ hrun
    have hone : L.toNat = 1 := by omega
    have hL : L = 1 := UInt32.toNat_inj.mp hone
    obtain rfl : fields = [] := by
      rw [← List.length_eq_zero_iff]
      rw [List.length_cons] at hbody
      omega
    refine ⟨hL, ?_⟩
    intro id' hid' hmem
    obtain rfl := List.mem_singleton.mp hid'
    subst hL
    simp only [List.mem_cons, List.not_mem_nil, or_false] at hmem
    rcases hmem with rfl | rfl | rfl | rfl
    all_goals exact absurd hlen (by decide)
  · rintro ⟨rfl, hid⟩
    obtain ⟨id, rfl⟩ := List.length_eq_one_iff.mp hbody
    have hnot := hid id List.mem_cons_self
    have hfields : fieldBytes 1 id = 0 := by
      simp only [List.mem_cons, List.not_mem_nil, or_false, not_or] at hnot
      obtain ⟨h4, h6, h7, h8⟩ := hnot
      rw [fieldBytes, if_neg h4, if_neg (not_or.mpr ⟨h6, h8⟩), if_neg h7]
      split_ifs <;> rfl
    rw [List.append_assoc]
    refine (receivePeerMessage_eq_some_iff junk msg 1 id rest rest _).mpr ⟨rfl, ?_, ?_⟩
    · rw [hfields]
      exact Nat.zero_le _
    · rw [hfields, List.drop_zero]

/-- The equivalence at the frame of an `unchoke`, followed by a keep-alive. -/
theorem receive_takes_frame_iff_example :
    (∃ msg', receivePeerMessage recvFull (fun _ _ => 0) ⟨.msgUnknown, 0, 0, 0, [], []⟩
        (networkBytes 1 ++ [1] ++ networkBytes 0) = some (4 + ((1 : UInt32).toNat : Int), msg',
          networkBytes 0)) ↔
      (1 : UInt32) = 1 ∧ ∀ id ∈ ([1] : List UInt8), id ∉ ([4, 6, 7, 8] : List UInt8) :=
  receive_takes_frame_iff _ _ 1 [1] (networkBytes 0) rfl

/-- A keep-alive followed by a `choke`: the first byte of the `choke`'s length is taken for an id,
and `5` is returned. -/
theorem keepalive_loses_frame :
    ¬ ∃ msg', receivePeerMessage recvFull (fun _ _ => 0) ⟨.msgUnknown, 0, 0, 0, [], []⟩
        (networkBytes 0 ++ [] ++ (networkBytes 1 ++ [0])) =
      some (4 + ((0 : UInt32).toNat : Int), msg', networkBytes 1 ++ [0]) := by
  rintro ⟨msg', hrun⟩
  have htaken : (receivePeerMessage recvFull (fun _ _ => 0) ⟨.msgUnknown, 0, 0, 0, [], []⟩
      (networkBytes 0 ++ [] ++ (networkBytes 1 ++ [0]))).map (fun r => (r.1, r.2.2)) =
      some (5, [0, 0, 1, 0]) := by
    decide
  rw [hrun, Option.map_some] at htaken
  obtain ⟨hret, _⟩ := Prod.mk.inj (Option.some.inj htaken)
  have hne : (4 + ((0 : UInt32).toNat : Int)) ≠ 5 := by decide
  exact hne hret

end Flood.Peer
