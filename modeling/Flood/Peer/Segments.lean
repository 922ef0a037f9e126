import Flood.Peer.Handshake

/-!
# Handshake and messages on a cut stream

* `Segmentation` — how TCP cuts the stream: how much each `recv` returns. `recvCut` is that `recv`.
* `Message.struct` — a struct that holds a message.
* `session` — `receive_peer_handshake`, and `receive_peer_message` as often as there are messages.
* `requests ms` — what the calls of `recv` ask for while a handshake and the messages `ms` are
  received.
* `session_of_whole` — where each `recv` returns all it is asked for, the stream is decoded as if no
  `recv` were ever cut.
* `survives_cuts_iff` — a segmentation is harmless, whatever the handshake and the messages, only if
  no `recv` is ever cut: each field is read by one `recv` whose count is dropped.
-/

namespace Flood.Peer

open Flood.Lib

/-! ## Cut streams -/

/-- How the stream is cut: `size k n` is what the `k`-th `recv` returns when it is asked for `n`
bytes and they have arrived. -/
structure Segmentation where
  /-- The number of bytes. -/
  size : Nat → Nat → Nat
  /-- A `recv` waits for a byte at least. -/
  pos : ∀ k n, 0 < n → 0 < size k n
  /-- It returns no more than it is asked for. -/
  le : ∀ k n, size k n ≤ n

/-- `recv` on a cut stream: the socket is the number of calls so far, and the stream. -/
def recvCut (seg : Segmentation) : Recv (Nat × List UInt8) := fun n s =>
  if 0 < n ∧ s.2 = [] then none
  else some ((s.2.take (seg.size s.1 n)).length, s.2.take (seg.size s.1 n),
    (s.1 + 1, s.2.drop (seg.size s.1 n)))

/-- Receive a handshake, and a message into each of the given structs: the handshake, and the
contents of the messages. -/
def session {σ : Type} (recv : Recv σ) (fresh : List (PeerMessage × (Nat → Nat → UInt8))) (s : σ) :
    Option (PeerHandshake × List (Option Message)) := do
  let (_, handshake, s) ← receivePeerHandshake recv s
  let (msgs, _) ← receiveAll recv fresh s
  some (handshake, msgs.map PeerMessage.content)

/-- The handshake and the messages, sent and then received from the cut stream, are decoded as from
the stream that is not cut. -/
def DecodedAlike (seg : Segmentation) (handshake : PeerHandshake) (msgs : List PeerMessage)
    (fresh : List (PeerMessage × (Nat → Nat → UInt8))) : Prop :=
  ∀ (junkId : UInt8) (ret : Int) (sent stream : List UInt8),
    sendPeerHandshake handshake [] = some (ret, sent) → sendAll junkId msgs sent = some stream →
    session (recvCut seg) fresh (0, stream) = session recvFull fresh stream

/-- **The segmentation is harmless**, whatever is sent and wherever it is received. -/
def SurvivesCuts (seg : Segmentation) : Prop :=
  ∀ (handshake : PeerHandshake) (msgs : List PeerMessage)
    (fresh : List (PeerMessage × (Nat → Nat → UInt8))),
    handshake.Sendable → (∀ msg ∈ msgs, msg.Sendable) → fresh.length = msgs.length →
    DecodedAlike seg handshake msgs fresh

/-- What the calls of `recv` ask for while a handshake and the messages are received: 68 bytes, and
of each message the prefix, the id and the fields. -/
def requests (ms : List Message) : List Nat :=
  68 :: (ms.flatMap Message.chunks).map List.length

/-- The calls of `recv` from the `k`-th on return all they are asked for. -/
def Whole (seg : Segmentation) (k : Nat) (sizes : List Nat) : Prop :=
  ∀ j n, sizes[j]? = some n → seg.size (k + j) n = n

/-- No `recv` is ever cut. -/
def NeverCuts (seg : Segmentation) : Prop :=
  ∀ ms : List Message, (∀ m ∈ ms, m.Fits) → Whole seg 0 (requests ms)

/-! ## Whole -/

variable {seg : Segmentation} {k : Nat} {m : Message} {ms : List Message} {bs rest : List UInt8}

/-- The first call, and the others. -/
theorem whole_cons_iff {n : Nat} {sizes : List Nat} :
    Whole seg k (n :: sizes) ↔ seg.size k n = n ∧ Whole seg (k + 1) sizes := by
  constructor
  · intro h
    refine ⟨h 0 n rfl, fun j n' hj => ?_⟩
    rw [Nat.add_assoc, Nat.add_comm 1]
    exact h (j + 1) n' hj
  · rintro ⟨hfirst, h⟩ j n' hj
    cases j with
    | zero =>
        obtain rfl := Option.some.inj hj
        exact hfirst
    | succ j =>
        rw [Nat.add_comm j, ← Nat.add_assoc]
        exact h j n' hj

/-- No calls are not cut. -/
theorem whole_nil : Whole seg k [] := fun _ _ h => by cases h

/-- Some calls, and the others. -/
theorem whole_append_iff {sizes sizes' : List Nat} :
    Whole seg k (sizes ++ sizes') ↔ Whole seg k sizes ∧ Whole seg (k + sizes.length) sizes' := by
  induction sizes generalizing k with
  | nil => exact (and_iff_right whole_nil).symm
  | cons n sizes ih =>
      rw [List.cons_append, whole_cons_iff, whole_cons_iff, ih, List.length_cons, and_assoc,
        Nat.add_assoc, Nat.add_comm 1]

/-- A byte is never cut. -/
theorem size_one (seg : Segmentation) (k : Nat) : seg.size k 1 = 1 :=
  Nat.le_antisymm (seg.le k 1) (seg.pos k 1 Nat.one_pos)

/-- A call that is not cut delivers. -/
theorem delivers_cut (h : seg.size k bs.length = bs.length) (rest : List UInt8) :
    Delivers (recvCut seg) (k, bs ++ rest) bs (k + 1, rest) := by
  intro junk
  have hready : ¬ (0 < bs.length ∧ bs ++ rest = []) := by
    rintro ⟨hpos, hnil⟩
    rw [(List.append_eq_nil_iff.mp hnil).1] at hpos
    exact absurd hpos (Nat.lt_irrefl 0)
  unfold recvInto recvCut
  rw [if_neg hready]
  simp [h]

/-- Calls that are not cut deliver. -/
theorem deliversAll_cut {chunks : List (List UInt8)} (h : Whole seg k (chunks.map List.length))
    (rest : List UInt8) :
    DeliversAll (recvCut seg) (k, chunks.flatten ++ rest) chunks (k + chunks.length, rest) := by
  induction chunks generalizing k with
  | nil => exact .nil _
  | cons bs chunks ih =>
      obtain ⟨hfirst, hothers⟩ := whole_cons_iff.mp h
      rw [List.flatten_cons, List.append_assoc, List.length_cons, Nat.add_comm chunks.length,
        ← Nat.add_assoc]
      exact .cons (delivers_cut hfirst _) (ih hothers)

/-- What comes whole is decoded. -/
theorem session_of_delivers {σ : Type} {recv : Recv σ} {s s' : σ} {handshake : PeerHandshake}
    (hh : handshake.Sendable) (hm : ∀ m ∈ ms, m.Fits)
    {fresh : List (PeerMessage × (Nat → Nat → UInt8))} (hf : fresh.length = ms.length)
    (hs : DeliversAll recv s (handshake.encode :: ms.flatMap Message.chunks) s') :
    session recv fresh s = some (readHandshake handshake.encode, ms.map some) := by
  obtain ⟨s₁, hfirst, hothers⟩ := deliversAll_cons_iff.mp hs
  obtain ⟨got, hruns, hcontents⟩ := receiveAll_of_chunks hm hf hothers
  unfold session
  rw [receivePeerHandshake_of_delivers hh hfirst, Option.bind_eq_bind, Option.bind_some]
  show (receiveAll recv fresh s₁).bind _ = _
  rw [hruns, Option.bind_some, ← hcontents]

/-- **Where no call is cut, the cut stream is decoded as the stream that is not cut.** -/
theorem session_of_whole {handshake : PeerHandshake} (hh : handshake.Sendable)
    (hm : ∀ m ∈ ms, m.Fits) {fresh : List (PeerMessage × (Nat → Nat → UInt8))}
    (hf : fresh.length = ms.length) (hw : Whole seg 0 (requests ms)) :
    session (recvCut seg) fresh (0, handshake.encode ++ (ms.map Message.encode).flatten) =
      session recvFull fresh (handshake.encode ++ (ms.map Message.encode).flatten) := by
  have hstream : handshake.encode ++ (ms.map Message.encode).flatten =
      (handshake.encode :: ms.flatMap Message.chunks).flatten ++ [] := by
    rw [List.append_nil, List.flatten_cons, flatten_flatMap_chunks]
  have hsizes : (handshake.encode :: ms.flatMap Message.chunks).map List.length = requests ms := by
    rw [List.map_cons, hh.length_encode, requests]
  rw [← hsizes] at hw
  rw [hstream, session_of_delivers hh hm hf (deliversAll_cut hw []),
    session_of_delivers hh hm hf (deliversAll_full _ [])]

/-! ## Cut -/

/-- What a buffer holds at first is nowhere what is written to it. -/
def Differs (junk : Nat → UInt8) (bs : List UInt8) : Prop := ∀ i b, bs[i]? = some b → junk i ≠ b

/-- Bytes that differ everywhere. -/
theorem exists_differs (bs : List UInt8) : Differs (fun i => bs.getD i 0 + 1) bs := by
  intro i b hb heq
  have hne : b + 1 ≠ b := by grind
  simp only [List.getD_eq_getElem?_getD, hb, Option.getD_some] at heq
  exact hne heq

/-- What a `recv` writes to a buffer, and what it leaves on the stream. -/
theorem recvInto_cut {junk : Nat → UInt8} {n : Nat} {s s' : Nat × List UInt8} {c : Int}
    {buf : List UInt8} (h : recvInto (recvCut seg) junk n s = some (c, buf, s')) :
    buf = s.2.take (seg.size s.1 n) ++
        ((List.range n).map junk).drop (s.2.take (seg.size s.1 n)).length ∧
      s' = (s.1 + 1, s.2.drop (seg.size s.1 n)) := by
  unfold recvInto recvCut at h
  split_ifs at h with hready
  · cases h
  · obtain ⟨-, h⟩ := Prod.mk.inj (Option.some.inj h)
    obtain ⟨rfl, rfl⟩ := Prod.mk.inj h
    exact ⟨rfl, rfl⟩

/-- A buffer is as long as it was asked for. -/
theorem length_of_recvInto_cut {junk : Nat → UInt8} {n : Nat} {s s' : Nat × List UInt8} {c : Int}
    {buf : List UInt8} (h : recvInto (recvCut seg) junk n s = some (c, buf, s')) :
    buf.length = n := by
  have hle := seg.le s.1 n
  rw [(recvInto_cut h).1, List.length_append, List.length_drop, List.length_map, List.length_range,
    List.length_take]
  omega

/-- A buffer that holds the bytes of the stream was not cut. -/
theorem whole_of_recvInto {junk : Nat → UInt8} (hd : Differs junk bs) {s' : Nat × List UInt8}
    {c : Int} (h : recvInto (recvCut seg) junk bs.length (k, bs ++ rest) = some (c, bs, s')) :
    seg.size k bs.length = bs.length ∧ s' = (k + 1, rest) := by
  obtain ⟨hbuf, rfl⟩ := recvInto_cut h
  have hle := seg.le k bs.length
  have hsize : seg.size k bs.length = bs.length := by
    rcases Nat.lt_or_eq_of_le hle with hlt | heq
    · generalize seg.size k bs.length = d at hbuf hle hlt
      rw [List.take_append_of_le_length hle] at hbuf
      have hlen : (bs.take d).length = d := List.length_take_of_le hle
      have hjunk := congrArg (fun l => l[d]?) hbuf
      simp only [List.getElem?_append_right (le_of_eq hlen), hlen, Nat.sub_self,
        List.getElem?_drop, Nat.add_zero, List.getElem?_map, List.getElem?_range hlt,
        Option.map_some] at hjunk
      exact absurd rfl (hd d (junk d) hjunk)
    · exact heq
  refine ⟨hsize, ?_⟩
  show (k + 1, (bs ++ rest).drop _) = _
  rw [hsize, List.drop_left]

/-- A number that is received as it was sent was not cut. -/
theorem whole_of_recvWord {junk : Nat → UInt8} {x : UInt32} (hd : Differs junk (networkBytes x))
    {s' : Nat × List UInt8}
    (h : recvWord (recvCut seg) junk (k, networkBytes x ++ rest) = some (x, s')) :
    seg.size k 4 = 4 ∧ s' = (k + 1, rest) := by
  unfold recvWord at h
  obtain ⟨⟨c, buf, s₁⟩, hinto, h⟩ := Option.bind_eq_some_iff.mp h
  obtain ⟨hx, rfl⟩ := Prod.mk.inj (Option.some.inj h)
  have hbuf : buf = networkBytes x := by
    rw [← hx, networkBytes, bswap32_bswap32, leBytes_leWord (length_of_recvInto_cut hinto)]
  rw [hbuf] at hinto
  exact whole_of_recvInto hd hinto

/-- Fields that are received as they were sent were not cut. -/
theorem whole_of_receiveFields (hm : m.Fits) {junk : Nat → Nat → UInt8}
    (hd : ∀ q bs, m.fields[q]? = some bs → Differs (junk (q + 2)) bs) {msg msg' : PeerMessage}
    {s' : Nat × List UInt8}
    (h : receiveFields (recvCut seg) junk (UInt32.ofNat m.body.length) m.id msg
      (k, m.fields.flatten) = some (msg', s'))
    (hc : msg'.content = some m) : Whole seg k (m.fields.map List.length) := by
  cases m with
  | choke | unchoke | interested | notInterested => exact whole_nil
  | hasPiece index =>
      rw [Message.id, receiveFields_have] at h
      obtain ⟨⟨x, s₁⟩, hx, heq⟩ := Option.map_eq_some_iff.mp h
      obtain ⟨rfl, rfl⟩ := Prod.mk.inj heq
      obtain rfl := Message.hasPiece.inj (Option.some.inj hc)
      exact whole_cons_iff.mpr ⟨(whole_of_recvWord (hd 0 _ rfl) hx).1, whole_nil⟩
  | bitfield length bits =>
      rw [Message.id, receiveFields_bitfield, bitfield_prefix_sub hm] at h
      obtain ⟨⟨c, buf, s₁⟩, hbuf, heq⟩ := Option.map_eq_some_iff.mp h
      obtain ⟨rfl, rfl⟩ := Prod.mk.inj heq
      have hbits : buf.take length.toNat = bits := (Message.bitfield.inj (Option.some.inj hc)).2
      rw [List.take_of_length_le (le_of_eq (length_of_recvInto_cut hbuf))] at hbits
      rw [hbits, ← hm.1] at hbuf
      exact whole_cons_iff.mpr ⟨(whole_of_recvInto (hd 0 _ rfl) hbuf).1, whole_nil⟩
  | request index start length | cancel index start length =>
      rw [Message.id, receiveFields_request _ _ _ _ _ (by simp)] at h
      obtain ⟨⟨x, s₁⟩, hx, h⟩ := Option.bind_eq_some_iff.mp h
      obtain ⟨⟨y, s₂⟩, hy, h⟩ := Option.bind_eq_some_iff.mp h
      obtain ⟨⟨z, s₃⟩, hz, heq⟩ := Option.map_eq_some_iff.mp h
      obtain ⟨rfl, rfl⟩ := Prod.mk.inj heq
      simp only [PeerMessage.content] at hc
      simp at hc
      obtain ⟨rfl, rfl, rfl⟩ := hc
      obtain ⟨h0, rfl⟩ := whole_of_recvWord (hd 0 _ rfl) hx
      obtain ⟨h1, rfl⟩ := whole_of_recvWord (hd 1 _ rfl) hy
      obtain ⟨h2, rfl⟩ := whole_of_recvWord (hd 2 _ rfl) hz
      exact whole_cons_iff.mpr ⟨h0, whole_cons_iff.mpr ⟨h1, whole_cons_iff.mpr ⟨h2, whole_nil⟩⟩⟩
  | piece index start length data =>
      rw [Message.id, receiveFields_piece, piece_prefix_sub hm] at h
      obtain ⟨⟨x, s₁⟩, hx, h⟩ := Option.bind_eq_some_iff.mp h
      obtain ⟨⟨y, s₂⟩, hy, h⟩ := Option.bind_eq_some_iff.mp h
      obtain ⟨⟨c, buf, s₃⟩, hbuf, heq⟩ := Option.map_eq_some_iff.mp h
      obtain ⟨rfl, rfl⟩ := Prod.mk.inj heq
      have hcontent : x = index ∧ y = start ∧ length = length ∧ buf.take length.toNat = data :=
        Message.piece.inj (Option.some.inj hc)
      obtain ⟨rfl, rfl, -, hdata⟩ := hcontent
      obtain ⟨h0, rfl⟩ := whole_of_recvWord (hd 0 _ rfl) hx
      obtain ⟨h1, rfl⟩ := whole_of_recvWord (hd 1 _ rfl) hy
      rw [List.take_of_length_le (le_of_eq (length_of_recvInto_cut hbuf))] at hdata
      rw [hdata, ← hm.1] at hbuf
      obtain ⟨h2, -⟩ := whole_of_recvInto (hd 2 _ rfl) hbuf
      exact whole_cons_iff.mpr ⟨h0, whole_cons_iff.mpr ⟨h1, whole_cons_iff.mpr ⟨h2, whole_nil⟩⟩⟩

/-- A message that is received as it was sent, its prefix not cut, was not cut. -/
theorem whole_of_receivePeerMessage (hm : m.Fits) (hpre : seg.size k 4 = 4)
    {junk : Nat → Nat → UInt8} (hd : ∀ q bs, m.chunks[q]? = some bs → Differs (junk q) bs)
    {msg msg' : PeerMessage} {c : Int} {s' : Nat × List UInt8}
    (h : receivePeerMessage (recvCut seg) junk msg (k, m.encode) = some (c, msg', s'))
    (hc : msg'.content = some m) : Whole seg k (m.chunks.map List.length) := by
  have hstream : m.encode =
      networkBytes (UInt32.ofNat m.body.length) ++ ([m.id] ++ m.fields.flatten) := by
    rw [← m.flatten_chunks]
    rfl
  rw [hstream, receivePeerMessage_of_delivers (delivers_cut hpre _)
    (delivers_cut (size_one seg (k + 1)) _)] at h
  obtain ⟨r, hfields, heq⟩ := Option.map_eq_some_iff.mp h
  obtain ⟨-, rfl⟩ := Prod.mk.inj heq
  refine whole_cons_iff.mpr ⟨hpre, whole_cons_iff.mpr ⟨size_one seg (k + 1), ?_⟩⟩
  exact whole_of_receiveFields hm (fun q bs hq => hd (q + 2) bs hq) hfields hc

/-- A cut prefix: the next byte is taken for the id. -/
theorem receivePeerMessage_short {a : List UInt8} {b : UInt8} (ha : seg.size k 4 = a.length)
    (junk : Nat → Nat → UInt8) (msg : PeerMessage) (rest : List UInt8) :
    ∃ L n msg₁, receivePeerMessage (recvCut seg) junk msg (k, a ++ b :: rest) =
      (receiveFields (recvCut seg) junk L b msg₁ (k + 2, rest)).map fun r => (n, r) := by
  have hready : ¬ (0 < 4 ∧ a ++ b :: rest = []) := by simp
  have hpre : recvInto (recvCut seg) (junk 0) 4 (k, a ++ b :: rest) =
      some ((a.length : Int), a ++ ((List.range 4).map (junk 0)).drop a.length, (k + 1, b :: rest)) := by
    unfold recvInto recvCut
    rw [if_neg hready]
    simp [ha]
  have hid : recvInto (recvCut seg) (junk 1) 1 (k + 1, b :: rest) =
      some (((1 : Nat) : Int), [b], (k + 2, rest)) :=
    @delivers_cut seg (k + 1) [b] (size_one seg (k + 1)) rest (junk 1)
  rw [receivePeerMessage, hpre]
  simp only [Option.bind_eq_bind, Option.bind_some, hid, List.headD_cons]
  generalize bswap32 (leWord (a ++ ((List.range 4).map (junk 0)).drop a.length)) = L
  generalize (if L = 0 then { msg with type := .msgKeepalive } else msg) = msg₁
  refine ⟨L, (a.length : Int) + ((1 : Nat) : Int), msg₁, ?_⟩
  cases receiveFields (recvCut seg) junk L b msg₁ (k + 2, rest) <;> rfl

/-- **A cut prefix is noticed**: an `interested` is received as another message. -/
theorem prefix_of_interested {junk : Nat → Nat → UInt8} {msg msg' : PeerMessage} {c : Int}
    {s' : Nat × List UInt8}
    (h : receivePeerMessage (recvCut seg) junk msg (k, Message.interested.encode) =
      some (c, msg', s'))
    (hc : msg'.content = some .interested) : seg.size k 4 = 4 := by
  have hpos := seg.pos k 4 (by decide)
  have hle := seg.le k 4
  have hstream : Message.interested.encode = [0, 0, 0, 1, 2] := by decide
  -- the id is taken from the prefix, where there is no 2
  have hshort : ∀ (a : List UInt8) (b : UInt8) (rest : List UInt8),
      seg.size k 4 = a.length → [0, 0, 0, 1, 2] = a ++ b :: rest → b = 0 ∨ b = 1 → False := by
    intro a b rest ha hsplit hb
    obtain ⟨L, n, msg₁, heq⟩ := @receivePeerMessage_short seg k a b ha junk msg rest
    rw [hstream, hsplit, heq] at h
    rcases hb with rfl | rfl
    · obtain rfl := congrArg Prod.fst (congrArg Prod.snd (Option.some.inj h))
      exact absurd hc (by simp [PeerMessage.content])
    · obtain rfl := congrArg Prod.fst (congrArg Prod.snd (Option.some.inj h))
      exact absurd hc (by simp [PeerMessage.content])
  by_contra hne
  have hcases : seg.size k 4 = 1 ∨ seg.size k 4 = 2 ∨ seg.size k 4 = 3 := by omega
  rcases hcases with h1 | h2 | h3
  · exact hshort [0] 0 [0, 1, 2] h1 rfl (.inl rfl)
  · exact hshort [0, 0] 0 [1, 2] h2 rfl (.inl rfl)
  · exact hshort [0, 0, 0] 1 [2] h3 rfl (.inr rfl)

/-! ## Which segmentations are harmless -/

/-- A struct that holds a message. -/
def Message.struct : Message → PeerMessage
  | choke => ⟨.msgChoke, 0, 0, 0, [], []⟩
  | unchoke => ⟨.msgUnchoke, 0, 0, 0, [], []⟩
  | interested => ⟨.msgInterested, 0, 0, 0, [], []⟩
  | notInterested => ⟨.msgNotInterested, 0, 0, 0, [], []⟩
  | hasPiece index => ⟨.msgHave, index, 0, 0, [], []⟩
  | bitfield length bits => ⟨.msgBitfield, length, 0, 0, bits, []⟩
  | request index start length => ⟨.msgRequest, index, start, length, [], []⟩
  | piece index start length data => ⟨.msgPiece, index, start, length, [], data⟩
  | cancel index start length => ⟨.msgCancel, index, start, length, [], []⟩

/-- The struct can be sent, and holds the message. -/
theorem Message.struct_spec (hm : m.Fits) : m.struct.Sendable ∧ m.struct.content = some m := by
  cases m with
  | bitfield length bits =>
      refine ⟨⟨le_of_eq hm.1.symm, hm.2⟩, ?_⟩
      show some (Message.bitfield length (bits.take length.toNat)) = _
      rw [← hm.1, List.take_length]
  | piece index start length data =>
      refine ⟨⟨le_of_eq hm.1.symm, hm.2⟩, ?_⟩
      show some (Message.piece index start length (data.take length.toNat)) = _
      rw [← hm.1, List.take_length]
  | _ => exact ⟨trivial, rfl⟩

/-- A handshake without a zero at its end. -/
def someHandshake : PeerHandshake :=
  ⟨19, List.replicate 19 1, 0, List.replicate 20 1, List.replicate 20 1⟩

/-- It is one that is sent. -/
theorem someHandshake_sendable : someHandshake.Sendable := ⟨rfl, rfl, rfl, rfl⟩

/-- What a harmless segmentation does to the handshake and messages. -/
theorem SurvivesCuts.session_eq (h : SurvivesCuts seg) (hm : ∀ m ∈ ms, m.Fits)
    {fresh : List (PeerMessage × (Nat → Nat → UInt8))} (hf : fresh.length = ms.length) :
    session (recvCut seg) fresh (0, someHandshake.encode ++ (ms.map Message.encode).flatten) =
      some (readHandshake someHandshake.encode, ms.map some) := by
  have hsent := sendPeerHandshake_spec someHandshake_sendable []
  have hcontents : (ms.map Message.struct).map PeerMessage.content = ms.map some := by
    rw [List.map_map]
    exact List.map_congr_left fun m hmem => (Message.struct_spec (hm m hmem)).2
  have hsendable : ∀ msg ∈ ms.map Message.struct, msg.Sendable := by
    intro msg hmsg
    obtain ⟨m, hmem, rfl⟩ := List.mem_map.mp hmsg
    exact (Message.struct_spec (hm m hmem)).1
  have hstream := sendAll_spec 0 hsendable hcontents ([] ++ someHandshake.encode)
  have heq := h someHandshake (ms.map Message.struct) fresh someHandshake_sendable hsendable
    (by rw [hf, List.length_map]) 0 68 _ _ hsent hstream
  rw [List.nil_append] at heq
  rw [heq]
  have hfull := deliversAll_full (someHandshake.encode :: ms.flatMap Message.chunks) []
  rw [List.append_nil, List.flatten_cons, flatten_flatMap_chunks] at hfull
  exact session_of_delivers someHandshake_sendable hm hf hfull

/-- The handshake is not cut. -/
theorem SurvivesCuts.handshake (h : SurvivesCuts seg) : seg.size 0 68 = 68 := by
  have hle := seg.le 0 68
  have hnone : ∀ m ∈ ([] : List Message), m.Fits := fun m hm => absurd hm List.not_mem_nil
  have hsession := h.session_eq hnone (rfl : List.length [] = 0)
  rw [List.map_nil, List.flatten_nil, List.append_nil] at hsession
  unfold session receivePeerHandshake at hsession
  obtain ⟨⟨c, handshake, s₁⟩, hrun, hrest⟩ := Option.bind_eq_some_iff.mp hsession
  obtain ⟨⟨c', buf, s₂⟩, hinto, hread⟩ := Option.bind_eq_some_iff.mp hrun
  obtain ⟨hbuf, -⟩ := recvInto_cut hinto
  have hbytes : readHandshake buf = readHandshake someHandshake.encode := by
    obtain rfl := congrArg Prod.fst (congrArg Prod.snd (Option.some.inj hread))
    exact congrArg Prod.fst (Option.some.inj hrest)
  by_contra hne
  -- the last byte of the buffer is still zero
  have hlast : buf[67]? = some 0 := by
    have hlen : (someHandshake.encode.take (seg.size 0 68)).length = seg.size 0 68 := by
      rw [List.length_take_of_le]
      rw [someHandshake_sendable.length_encode]
      exact hle
    have hbuf' : buf = someHandshake.encode.take (seg.size 0 68) ++ ((List.range 68).map
        fun _ => 0).drop (someHandshake.encode.take (seg.size 0 68)).length := hbuf
    rw [hbuf', List.getElem?_append_right (by omega), hlen, List.getElem?_drop, List.getElem?_map,
      Nat.add_sub_cancel' (by omega), List.getElem?_range (by decide)]
    rfl
  have hpeer := congrArg (fun h => h.peerId[19]?) hbytes
  simp only [readHandshake, List.getElem?_take, List.getElem?_drop] at hpeer
  norm_num at hpeer
  rw [hlast] at hpeer
  exact absurd hpeer (by decide +kernel)

/-- After messages that are not cut, the next message is received as it was sent. -/
theorem SurvivesCuts.next (h : SurvivesCuts seg) (hms : ∀ m ∈ ms, m.Fits) (hm : m.Fits)
    (hw : Whole seg 0 (requests ms)) (junk : Nat → Nat → UInt8) (msg : PeerMessage) :
    ∃ c msg' s', receivePeerMessage (recvCut seg) junk msg ((requests ms).length, m.encode) =
      some (c, msg', s') ∧ msg'.content = some m := by
  have hfits : ∀ m' ∈ ms ++ [m], m'.Fits := by
    intro m' hm'
    rcases List.mem_append.mp hm' with hm' | hm'
    · exact hms m' hm'
    · exact List.mem_singleton.mp hm' ▸ hm
  have hfresh : (List.replicate ms.length (msg, junk)).length = ms.length := List.length_replicate
  have hfresh' : (List.replicate ms.length (msg, junk) ++ [(msg, junk)]).length =
      (ms ++ [m]).length := by simp
  have hsession := h.session_eq hfits hfresh'
  have hsizes : (someHandshake.encode :: ms.flatMap Message.chunks).map List.length =
      requests ms := by
    rw [List.map_cons, someHandshake_sendable.length_encode, requests]
  have hstream : someHandshake.encode ++ ((ms ++ [m]).map Message.encode).flatten =
      (someHandshake.encode :: ms.flatMap Message.chunks).flatten ++ m.encode := by
    rw [List.flatten_cons, flatten_flatMap_chunks, List.map_append, List.flatten_append,
      List.append_assoc]
    simp
  rw [← hsizes] at hw
  have hlength := congrArg List.length hsizes
  rw [List.length_map] at hlength
  have hdelivers := deliversAll_cut hw m.encode
  rw [Nat.zero_add, hlength] at hdelivers
  obtain ⟨s₁, hfirst, hothers⟩ := deliversAll_cons_iff.mp hdelivers
  obtain ⟨got, hruns, hcontents⟩ := receiveAll_of_chunks hms hfresh hothers
  rw [hstream] at hsession
  unfold session at hsession
  rw [receivePeerHandshake_of_delivers someHandshake_sendable hfirst, Option.bind_eq_bind,
    Option.bind_some] at hsession
  obtain ⟨⟨msgs, s₂⟩, hall, hmsgs⟩ := Option.bind_eq_some_iff.mp hsession
  rw [receiveAll_append, hruns, Option.bind_some] at hall
  obtain ⟨⟨last, s₃⟩, hlast, heq⟩ := Option.map_eq_some_iff.mp hall
  obtain ⟨⟨c, msg', s'⟩, hrun, hlast⟩ := Option.bind_eq_some_iff.mp hlast
  refine ⟨c, msg', s', hrun, ?_⟩
  obtain rfl := (Prod.mk.inj (Option.some.inj hlast)).1
  obtain rfl := (Prod.mk.inj heq).1
  have hdecoded := (Prod.mk.inj (Option.some.inj hmsgs)).2
  rw [List.map_append, List.map_append, hcontents] at hdecoded
  exact (List.cons.inj (List.append_cancel_left hdecoded)).1

/-- **A harmless segmentation never cuts.** -/
theorem SurvivesCuts.neverCuts (h : SurvivesCuts seg) : NeverCuts seg := by
  intro ms hms
  induction ms using List.reverseRecOn with
  | nil => exact whole_cons_iff.mpr ⟨h.handshake, whole_nil⟩
  | append_singleton ms m ih =>
      have hold : ∀ m' ∈ ms, m'.Fits := fun m' hm' => hms m' (List.mem_append_left _ hm')
      have hm : m.Fits := hms m (List.mem_append_right _ (List.mem_singleton.mpr rfl))
      have hw := ih hold
      have hsplit : requests (ms ++ [m]) = requests ms ++ m.chunks.map List.length := by
        simp [requests]
      rw [hsplit, whole_append_iff, Nat.zero_add]
      refine ⟨hw, ?_⟩
      -- the prefix is tried on an `interested`, the rest on the message itself
      have hinterested : Message.interested.Fits := trivial
      obtain ⟨c₀, msg₀, s₀, hrun₀, hc₀⟩ :=
        h.next hold hinterested hw (fun _ _ => 0) Message.choke.struct
      have hpre := prefix_of_interested hrun₀ hc₀
      obtain ⟨c, msg', s', hrun, hc⟩ := h.next hold hm hw
        (fun q i => (m.chunks.getD q []).getD i 0 + 1) Message.choke.struct
      refine whole_of_receivePeerMessage hm hpre (fun q bs hq => ?_) hrun hc
      rw [List.getD_eq_getElem?_getD, hq]
      exact exists_differs bs

/-- **Decoding does not depend on how the stream is cut** where no `recv` of the run is cut; and a
segmentation that is harmless whatever is sent is one that never cuts a `recv`. -/
theorem survives_cuts_iff (seg : Segmentation) :
    (∀ (handshake : PeerHandshake) (msgs : List PeerMessage) (ms : List Message)
      (fresh : List (PeerMessage × (Nat → Nat → UInt8))),
      handshake.Sendable → (∀ msg ∈ msgs, msg.Sendable) → fresh.length = msgs.length →
      msgs.map PeerMessage.content = ms.map some → Whole seg 0 (requests ms) →
      DecodedAlike seg handshake msgs fresh) ∧
    (SurvivesCuts seg ↔ NeverCuts seg) := by
  have hrun : ∀ (handshake : PeerHandshake) (msgs : List PeerMessage) (ms : List Message)
      (fresh : List (PeerMessage × (Nat → Nat → UInt8))),
      handshake.Sendable → (∀ msg ∈ msgs, msg.Sendable) → fresh.length = msgs.length →
      msgs.map PeerMessage.content = ms.map some → Whole seg 0 (requests ms) →
      DecodedAlike seg handshake msgs fresh := by
    intro handshake msgs ms fresh hh hs hf hcontents hw junkId ret sent stream hsent hstream
    obtain ⟨ms', hcontents', hfits⟩ := exists_contents hs
    obtain rfl : ms' = ms := List.map_injective_iff.mpr (Option.some_injective _)
      (hcontents'.symm.trans hcontents)
    have hlength := congrArg List.length hcontents
    rw [List.length_map, List.length_map] at hlength
    rw [sendPeerHandshake_spec hh, List.nil_append] at hsent
    obtain ⟨-, rfl⟩ := Prod.mk.inj (Option.some.inj hsent)
    rw [sendAll_spec junkId hs hcontents] at hstream
    obtain rfl := Option.some.inj hstream
    exact session_of_whole hh hfits (hf.trans hlength) hw
  refine ⟨hrun, SurvivesCuts.neverCuts, fun h handshake msgs fresh hh hs hf => ?_⟩
  obtain ⟨ms, hcontents, hfits⟩ := exists_contents hs
  exact hrun handshake msgs ms fresh hh hs hf hcontents (h ms hfits)

/-- Everything comes whole but what the fourth `recv` asks for: of that, two bytes at most. -/
def cutIndex : Segmentation where
  size k n := if k = 3 then min 2 n else n
  pos k n hn := by
    split_ifs
    · exact lt_min (by decide) hn
    · exact hn
  le k n := by
    split_ifs
    · exact min_le_right 2 n
    · exact le_rfl

/-- It does no harm to a message of which there is no fourth `recv`. -/
theorem survives_cuts_iff_example :
    DecodedAlike cutIndex someHandshake [Message.interested.struct]
      [(Message.choke.struct, fun _ _ => 0)] := by
  have hsendable := Message.struct_spec (show Message.interested.Fits from trivial)
  refine (survives_cuts_iff cutIndex).1 someHandshake _ [.interested] _ someHandshake_sendable ?_ rfl ?_ ?_
  · simpa using hsendable.1
  · simpa using hsendable.2
  · exact whole_cons_iff.mpr ⟨rfl, whole_cons_iff.mpr ⟨rfl, whole_cons_iff.mpr ⟨rfl, whole_nil⟩⟩⟩

/-- A `have` of piece 7 whose index comes in two parts is received as one of piece 0. -/
theorem cut_index_misread :
    (session (recvCut cutIndex) [(Message.choke.struct, fun _ _ => 0)]
      (0, someHandshake.encode ++ ([Message.hasPiece 7].map Message.encode).flatten)).map Prod.snd =
        some [some (.hasPiece 0)] ∧
      ¬ SurvivesCuts cutIndex := by
  have hmis : (session (recvCut cutIndex) [(Message.choke.struct, fun _ _ => 0)]
      (0, someHandshake.encode ++ ([Message.hasPiece 7].map Message.encode).flatten)).map Prod.snd =
        some [some (.hasPiece 0)] := by
    decide +kernel
  refine ⟨hmis, fun h => ?_⟩
  have hfits : ∀ m ∈ [Message.hasPiece 7], m.Fits := fun m hm => List.mem_singleton.mp hm ▸ trivial
  have hsession := @SurvivesCuts.session_eq cutIndex [.hasPiece 7] h hfits
    [(Message.choke.struct, fun _ _ => 0)] rfl
  rw [hsession] at hmis
  exact absurd hmis (by decide)

end Flood.Peer
