import Flood.Lib.Word

/-!
# `peer_protocol.c`: peer wire messages

`send_peer_message` and `receive_peer_message` as the source computes them.

* `PeerMessage` — the struct with its union. The three 32-bit words at the start of the union are
  shared by all its members, so `msg_have.piece_index`, `msg_bitfield.bitfield_length`,
  `msg_request.piece_index` and `msg_piece.piece_index` are the one word `word0`.
* `sendPeerMessage` — what is appended to the byte stream, and the count returned. `none` where the
  source reads past the end of a payload buffer.
* `receivePeerMessage` — over any `recv`, which may deliver fewer bytes than asked for; what a
  buffer holds before `recv` writes to it is given by `junk`. `none` where a `recv` does not return.

The buffers that `malloc` returns are taken to be there. The handshake and `print_peer_message` are
not part of this module.
-/

namespace Flood.Peer

open Flood.Lib

/-- The kinds of message.
Source: `peer_protocol.h`, `peer_message_type` -/
inductive PeerMessageType where
  | msgKeepalive
  | msgChoke
  | msgUnchoke
  | msgInterested
  | msgNotInterested
  | msgHave
  | msgBitfield
  | msgRequest
  | msgPiece
  | msgCancel
  | msgUnknown
  deriving DecidableEq

/-- A message. The pointers `bitfield` and `data` are kept apart from the words: no code reads one
through the other.
Source: `peer_protocol.h`, `peer_message` -/
structure PeerMessage where
  /-- The kind, which says how the union is read. -/
  type : PeerMessageType
  /-- `piece_index` of `msg_have`, `msg_request` and `msg_piece`; `bitfield_length`. -/
  word0 : UInt32
  /-- `begin` of `msg_request` and `msg_piece`. -/
  word1 : UInt32
  /-- `length` of `msg_request` and `msg_piece`. -/
  word2 : UInt32
  /-- The buffer `msg_bitfield.bitfield` points to. -/
  bitfield : List UInt8
  /-- The buffer `msg_piece.data` points to. -/
  data : List UInt8
  deriving DecidableEq

/-- The four bytes `htonl` puts on the wire: most significant first. -/
def networkBytes (x : UInt32) : List UInt8 := leBytes (bswap32 x)

/-! ## Sending -/

/-- `send` of a whole buffer: the count, and the stream with the bytes appended. -/
def send (sock bytes : List UInt8) : Int × List UInt8 := (bytes.length, sock ++ bytes)

/-- `send` of the first `n` bytes of a buffer, which must have that many. -/
def sendBuffer (sock buffer : List UInt8) (n : UInt32) : Option (Int × List UInt8) :=
  if n.toNat ≤ buffer.length then some (send sock (buffer.take n.toNat)) else none

/-- The first `if` chain of `send_peer_message`: `msg_length` and `msg_id`. No branch for a keep-alive
or an unknown type sets `msg_id`, which then holds `junkId`. -/
def messageHeader (junkId : UInt8) (msg : PeerMessage) : UInt32 × UInt8 :=
  match msg.type with
  | .msgKeepalive => (0, junkId)
  | .msgChoke => (1, 0)
  | .msgUnchoke => (1, 1)
  | .msgInterested => (1, 2)
  | .msgNotInterested => (1, 3)
  | .msgHave => (5, 4)
  | .msgBitfield => (1 + msg.word0, 5)
  | .msgRequest => (13, 6)
  | .msgPiece => (9 + msg.word2, 7)
  | .msgCancel => (13, 8)
  | .msgUnknown => (-1, junkId)

/-- Send a message: the number of bytes sent, and the stream afterwards. A `have` is sent through
`msg_request.piece_index`.
Source: `peer_protocol.c`, `send_peer_message` -/
def sendPeerMessage (junkId : UInt8) (msg : PeerMessage) (sock : List UInt8) :
    Option (Int × List UInt8) := do
  let (msgLength, msgId) := messageHeader junkId msg
  let (sb, sock) := send sock (networkBytes msgLength)
  if msgLength = 0 then
    some (sb, sock)
  else
    let (n, sock) := send sock [msgId]
    let sb := sb + n
    match msg.type with
    | .msgHave =>
        let (n, sock) := send sock (networkBytes msg.word0)
        some (sb + n, sock)
    | .msgBitfield => do
        let (n, sock) ← sendBuffer sock msg.bitfield msg.word0
        some (sb + n, sock)
    | .msgRequest | .msgCancel =>
        let (n0, sock) := send sock (networkBytes msg.word0)
        let (n1, sock) := send sock (networkBytes msg.word1)
        let (n2, sock) := send sock (networkBytes msg.word2)
        some (sb + n0 + n1 + n2, sock)
    | .msgPiece => do
        let (n0, sock) := send sock (networkBytes msg.word0)
        let (n1, sock) := send sock (networkBytes msg.word1)
        let (n2, sock) ← sendBuffer sock msg.data msg.word2
        some (sb + n0 + n1 + n2, sock)
    | _ => some (sb, sock)

/-! ## Receiving -/

/-- A `recv` on a socket in state `σ`: asked for `n` bytes, it returns a count, the bytes it has
written and the socket afterwards, or does not return. -/
abbrev Recv (σ : Type) := Nat → σ → Option (Int × List UInt8 × σ)

/-- `recv` into a buffer of `n` bytes: what it returns, and what the buffer holds then. Where fewer
bytes come, the rest of the buffer is what was in it before. -/
def recvInto {σ : Type} (recv : Recv σ) (junk : Nat → UInt8) (n : Nat) (s : σ) :
    Option (Int × List UInt8 × σ) := do
  let (ret, bytes, s) ← recv n s
  some (ret, bytes ++ ((List.range n).map junk).drop bytes.length, s)

/-- `recv` of a 32-bit number in network order into a local variable; the count is dropped. -/
def recvWord {σ : Type} (recv : Recv σ) (junk : Nat → UInt8) (s : σ) : Option (UInt32 × σ) := do
  let (_, buf, s) ← recvInto recv junk 4 s
  some (bswap32 (leWord buf), s)

/-- The `if` chain of `receive_peer_message` over the id: the fields are read into `msg`, and none of
these bytes is counted. -/
def receiveFields {σ : Type} (recv : Recv σ) (junk : Nat → Nat → UInt8) (lengthPrefix : UInt32)
    (msgType : UInt8) (msg : PeerMessage) (s : σ) : Option (PeerMessage × σ) :=
  if msgType = 0 then
    some ({ msg with type := .msgChoke }, s)
  else if msgType = 1 then
    some ({ msg with type := .msgUnchoke }, s)
  else if msgType = 2 then
    some ({ msg with type := .msgInterested }, s)
  else if msgType = 3 then
    some ({ msg with type := .msgNotInterested }, s)
  else if msgType = 4 then do
    let (pieceIndex, s) ← recvWord recv (junk 2) s
    some ({ msg with type := .msgHave, word0 := pieceIndex }, s)
  else if msgType = 5 then do
    let bflen := lengthPrefix - 1
    let (_, bitfield, s) ← recvInto recv (junk 2) bflen.toNat s
    some ({ msg with type := .msgBitfield, word0 := bflen, bitfield := bitfield }, s)
  else if msgType = 6 ∨ msgType = 8 then do
    let type : PeerMessageType := if msgType = 6 then .msgRequest else .msgCancel
    let (pieceIndex, s) ← recvWord recv (junk 2) s
    let (start, s) ← recvWord recv (junk 3) s
    let (length, s) ← recvWord recv (junk 4) s
    some ({ msg with type := type, word0 := pieceIndex, word1 := start, word2 := length }, s)
  else if msgType = 7 then do
    let (pieceIndex, s) ← recvWord recv (junk 2) s
    let (start, s) ← recvWord recv (junk 3) s
    let pieceLength := lengthPrefix - 9
    let (_, data, s) ← recvInto recv (junk 4) pieceLength.toNat s
    some ({ msg with
      type := .msgPiece, word0 := pieceIndex, word1 := start, word2 := pieceLength, data := data }, s)
  else
    some ({ msg with type := .msgUnknown }, s)

/-- Receive a message into `msg`: the count returned, the message, and the socket afterwards. Only
the bytes of the prefix and of the id are counted. `junk k` is what the `k`-th buffer holds at
first.
Source: `peer_protocol.c`, `receive_peer_message` -/
def receivePeerMessage {σ : Type} (recv : Recv σ) (junk : Nat → Nat → UInt8) (msg : PeerMessage)
    (s : σ) : Option (Int × PeerMessage × σ) := do
  let (n0, buf, s) ← recvInto recv (junk 0) 4 s
  let lengthPrefix := bswap32 (leWord buf)
  -- a keep-alive is recognised here, and the type is overwritten below
  let msg := if lengthPrefix = 0 then { msg with type := .msgKeepalive } else msg
  let (n1, buf, s) ← recvInto recv (junk 1) 1 s
  let (msg, s) ← receiveFields recv junk lengthPrefix (buf.headD 0) msg s
  some (n0 + n1, msg, s)

/-- A `recv` that is satisfied in full: it returns once the stream has all the bytes asked for. -/
def recvFull : Recv (List UInt8) := fun n s =>
  if n ≤ s.length then some (n, s.take n, s.drop n) else none

/-! ## Sequences -/

/-- Send messages in order. -/
def sendAll (junkId : UInt8) : List PeerMessage → List UInt8 → Option (List UInt8)
  | [], sock => some sock
  | msg :: msgs, sock => do
      let (_, sock) ← sendPeerMessage junkId msg sock
      sendAll junkId msgs sock

/-- Call `receive_peer_message` in order, once for each of the given structs. With each comes what
the struct and the local buffers of the call hold before it. -/
def receiveAll {σ : Type} (recv : Recv σ) :
    List (PeerMessage × (Nat → Nat → UInt8)) → σ → Option (List PeerMessage × σ)
  | [], s => some ([], s)
  | (msg, junk) :: fresh, s => do
      let (_, msg, s) ← receivePeerMessage recv junk msg s
      let (msgs, s) ← receiveAll recv fresh s
      some (msg :: msgs, s)

end Flood.Peer
