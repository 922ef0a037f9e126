import Flood.Lib.Bits
import Flood.Lib.Runs
import Flood.Peer.Frames
import Mathlib.Data.List.DropRight

/-!
# `peer.c` and the message loop of `peer_communication`

What a peer has announced, and what is recorded of it.

* `PeerT`, `peerUpdateBitfield`, `peerUpdateBitfieldIndex` — the peer and the two updates.
* `handleMessage` — one turn of the `while` loop of `peer_communication`, from the decoded message
  on; `handleAll` the turns of a sequence of messages.
* `HasBitfield peer bits rest` — the bitfield of the peer is `bits`, with `rest` behind it in memory;
  `peerUpdateBitfieldIndex_eq` — a call writes one bit of it, or none.
* `Announced msgs i` — the messages announce piece `i`: by the last bitfield, or by a `have` behind
  it.
* `handleAll_spec` — what the loop records: the last bitfield, and the later `have`s inside it.
* `announcements_recorded_iff` — nothing announced is lost exactly if every `have` behind the last
  bitfield lies inside that bitfield; where there was none, every `have` is lost.
-/

namespace Flood.Peer

open Flood.Lib

/-- What a peer is doing. A status that was never written is whatever the memory held.
Source: `peer.h`, `peer_status` -/
inductive PeerStatus where
  /-- Not tried yet. -/
  | new
  /-- A thread communicates with it. -/
  | inUse
  /-- Given up. -/
  | bad
  /-- A word that is no status. -/
  | junk (word : UInt32)
  deriving DecidableEq

/-- A peer. `id` and `origin_tracker`, which nothing writes or reads, are left out.
Source: `peer.h`, `peer_t` -/
structure PeerT where
  /-- The 32 bits of the address, an `int`. -/
  ipAddress : UInt32
  /-- The 32 bits of the port, an `int`. -/
  port : UInt32
  /-- Whether a thread has it. -/
  status : PeerStatus
  /-- The length of the bitfield, an `int`. -/
  bitfieldLength : Int
  /-- The bitfield; `none` is `NULL`. -/
  bitfield : Option (List UInt8)
  /-- Whether the peer is choking us. -/
  choking : Bool
  /-- Whether the peer is interested in us. -/
  interested : Bool
  deriving DecidableEq

/-- The peer that `client_find_peer` makes. The status is not written; `status` is what `malloc`
left there.
Source: `client.c`, `client_find_peer` -/
def newPeer (ip port : UInt32) (status : PeerStatus) : PeerT where
  ipAddress := ip
  port := port
  status := status
  bitfieldLength := 0
  bitfield := none
  choking := false
  interested := false

/-- Replace the bitfield by the first `newLen` bytes of a buffer.
Source: `peer.c`, `peer_update_bitfield` -/
def peerUpdateBitfield (peer : PeerT) (newBitfield : List UInt8) (newLen : UInt32) : Option PeerT :=
  if newLen.toNat ≤ newBitfield.length then
    some { peer with
      bitfield := some (newBitfield.take newLen.toNat), bitfieldLength := intOfUInt newLen }
  else none

/-- `1 << (7 - (idx & 0x7))` as a byte. -/
def maskOf (idx : UInt32) : UInt8 := ((1 : UInt32) <<< (7 - (idx &&& 7))).toUInt8

/-- Write one bit of the bitfield, most significant bit first. The length is converted to
`uint32_t` for the comparison.
Source: `peer.c`, `peer_update_bitfield_index` -/
def peerUpdateBitfieldIndex (peer : PeerT) (idx : UInt32) (newval : Bool) : Option PeerT :=
  if idx / 8 ≥ UInt32.ofInt peer.bitfieldLength then some peer
  else do
    let bitfield ← peer.bitfield
    let byte ← bitfield[(idx / 8).toNat]?
    some { peer with bitfield := some (bitfield.set (idx / 8).toNat
      (if newval then byte ||| maskOf idx else byte &&& ~~~ maskOf idx)) }

/-- One turn of the loop of `peer_communication`, from the decoded message on.
Source: `client.c`, `peer_communication` -/
def handleMessage (peer : PeerT) (msg : PeerMessage) : Option PeerT :=
  match msg.type with
  | .msgBitfield => peerUpdateBitfield peer msg.bitfield msg.word0
  | .msgHave => peerUpdateBitfieldIndex peer msg.word0 true
  | .msgChoke => some { peer with choking := true }
  | .msgUnchoke => some { peer with choking := false }
  | .msgInterested => some { peer with interested := true }
  | .msgNotInterested => some { peer with interested := false }
  | _ => some peer

/-- The turns of the loop for a sequence of messages. -/
def handleAll (peer : PeerT) (msgs : List PeerMessage) : Option PeerT := msgs.foldlM handleMessage peer

/-! ## What is announced and what is recorded -/

/-- The message is a bitfield. -/
def IsBitfield (msg : PeerMessage) : Prop := msg.type = .msgBitfield

/-- The message announces piece `i` alone. -/
def IsHave (i : Nat) (msg : PeerMessage) : Prop := msg.type = .msgHave ∧ msg.word0.toNat = i

instance : DecidablePred IsBitfield := fun msg => inferInstanceAs (Decidable (msg.type = _))

instance (i : Nat) : DecidablePred (IsHave i) := fun _ => inferInstanceAs (Decidable (_ ∧ _))

/-- A bitfield message comes with a buffer of its length. -/
def Decoded (msg : PeerMessage) : Prop := IsBitfield msg → msg.bitfield.length = msg.word0.toNat

/-- The last bitfield among the messages. -/
def lastBitfield (msgs : List PeerMessage) : Option PeerMessage :=
  (msgs.filter (IsBitfield ·)).getLast?

/-- The messages behind the last bitfield; all of them if there is none. -/
def sinceBitfield (msgs : List PeerMessage) : List PeerMessage :=
  msgs.rtakeWhile (¬ IsBitfield ·)

/-- The messages announce piece `i`. -/
def Announced (msgs : List PeerMessage) (i : Nat) : Prop :=
  (∃ b, lastBitfield msgs = some b ∧ bitAt b.bitfield i = true) ∨
    ∃ msg ∈ sinceBitfield msgs, IsHave i msg

/-- Piece `i` is recorded as present. -/
def recorded (peer : PeerT) (i : Nat) : Bool :=
  i / 8 < (UInt32.ofInt peer.bitfieldLength).toNat &&
    (peer.bitfield.map fun bits => bitAt bits i).getD false

/-- The number of bytes of the last bitfield, `0` if there is none. -/
def lastLength (msgs : List PeerMessage) : Nat :=
  ((lastBitfield msgs).map fun b => b.word0.toNat).getD 0

variable {peer peer' : PeerT} {msgs : List PeerMessage} {msg b : PeerMessage} {bits : List UInt8}

/-! ### One message more -/

/-- A bitfield is the last one from then on. -/
theorem lastBitfield_concat_of_isBitfield (h : IsBitfield msg) :
    lastBitfield (msgs ++ [msg]) = some msg := by
  rw [lastBitfield, List.filter_append]
  simp [h]

/-- Any other message leaves the last bitfield. -/
theorem lastBitfield_concat_of_not (h : ¬ IsBitfield msg) :
    lastBitfield (msgs ++ [msg]) = lastBitfield msgs := by
  rw [lastBitfield, List.filter_append]
  simp [h, lastBitfield]

/-- Nothing is behind a bitfield that comes last. -/
theorem sinceBitfield_concat_of_isBitfield (h : IsBitfield msg) :
    sinceBitfield (msgs ++ [msg]) = [] :=
  List.rtakeWhile_concat_neg _ _ _ (by simpa using h)

/-- Any other message is behind the last bitfield. -/
theorem sinceBitfield_concat_of_not (h : ¬ IsBitfield msg) :
    sinceBitfield (msgs ++ [msg]) = sinceBitfield msgs ++ [msg] :=
  List.rtakeWhile_concat_pos _ _ _ (by simpa using h)

/-! ## The updates -/

/-- The mask is the bit of the index. -/
theorem maskOf_eq (idx : UInt32) : maskOf idx = bitMask idx.toNat := by
  have hand : (idx &&& 7).toNat = idx.toNat % 8 := by
    rw [UInt32.toNat_and]
    exact Nat.and_two_pow_sub_one_eq_mod idx.toNat 3
  have hle : (idx &&& 7) ≤ (7 : UInt32) := by
    rw [UInt32.le_iff_toNat_le, hand]
    show _ ≤ 7
    omega
  have hsub : (7 - (idx &&& 7)).toNat = 7 - idx.toNat % 8 := by
    rw [UInt32.toNat_sub_of_le _ _ hle, hand]
    rfl
  have hlt : 2 ^ (7 - idx.toNat % 8) < 2 ^ 8 := Nat.pow_lt_pow_right Nat.one_lt_two (by omega)
  apply UInt8.toNat_inj.mp
  rw [maskOf, UInt32.toNat_toUInt8, UInt32.toNat_shiftLeft, hsub, toNat_bitMask,
    Nat.mod_eq_of_lt (show 7 - idx.toNat % 8 < 32 by omega), Nat.shiftLeft_eq]
  show 1 * _ % 2 ^ 32 % 2 ^ 8 = _
  rw [Nat.one_mul, Nat.mod_eq_of_lt (lt_trans hlt (by decide)), Nat.mod_eq_of_lt hlt]

/-- The bitfield of the peer has the length the peer says, or there is none and the length is
zero. -/
def Sized (peer : PeerT) : Prop :=
  match peer.bitfield with
  | none => peer.bitfieldLength = 0
  | some bits => (UInt32.ofInt peer.bitfieldLength).toNat = bits.length

/-- A whole bitfield is recorded as it is. -/
theorem peerUpdateBitfield_spec (peer : PeerT) {newLen : UInt32} (h : bits.length = newLen.toNat) :
    ∃ peer', peerUpdateBitfield peer bits newLen = some peer' ∧ Sized peer' ∧
      peer'.bitfieldLength = intOfUInt newLen ∧ ∀ i, recorded peer' i = bitAt bits i := by
  obtain ⟨len, hlen⟩ : ∃ len, intOfUInt newLen = len := ⟨_, rfl⟩
  have hof : UInt32.ofInt len = newLen := by rw [← hlen, ofInt_intOfUInt]
  rw [peerUpdateBitfield, if_pos h.ge, hlen]
  refine ⟨_, rfl, ?_, rfl, fun i => ?_⟩
  · show (UInt32.ofInt len).toNat = (bits.take newLen.toNat).length
    rw [hof, ← h, List.take_length]
  · show (decide (i / 8 < (UInt32.ofInt len).toNat) && bitAt (bits.take newLen.toNat) i) = _
    rw [hof, ← h, List.take_length]
    by_cases hi : i / 8 < bits.length
    · simp [hi]
    · rw [bitAt_eq_false_of_le (not_lt.mp hi), Bool.and_false]

/-- The peer with these bytes at its bitfield, if it has one. -/
def PeerT.withBytes (peer : PeerT) (bytes : List UInt8) : PeerT :=
  { peer with bitfield := peer.bitfield.map fun _ => bytes }

@[simp] theorem withBytes_withBytes (bytes bytes' : List UInt8) :
    (peer.withBytes bytes).withBytes bytes' = peer.withBytes bytes' := by
  simp only [PeerT.withBytes, Option.map_map]
  rfl

/-- The bitfield of the peer is `bits`, and `rest` is what the memory holds behind it. A peer without
a bitfield has an empty one. -/
structure HasBitfield (peer : PeerT) (bits rest : List UInt8) : Prop where
  /-- What the memory holds from the start of the bitfield on. -/
  block : peer.bitfield.getD [] = bits ++ rest
  /-- The length, as it is compared. -/
  length : (UInt32.ofInt peer.bitfieldLength).toNat = bits.length

namespace HasBitfield

variable {bits' rest : List UInt8}

/-- A bitfield in memory, or none at all. -/
theorem cases_block (h : HasBitfield peer bits rest) :
    peer.bitfield = some (bits ++ rest) ∨ peer.bitfield = none ∧ bits = [] ∧ rest = [] := by
  have hblock := h.block
  cases hbits : peer.bitfield with
  | some bytes =>
      rw [hbits] at hblock
      exact .inl (congrArg some hblock)
  | none =>
      rw [hbits] at hblock
      exact .inr ⟨rfl, List.append_eq_nil_iff.mp hblock.symm⟩

/-- Writing what is there changes nothing. -/
theorem withBytes_self (h : HasBitfield peer bits rest) : peer.withBytes (bits ++ rest) = peer := by
  rw [PeerT.withBytes]
  rcases h.cases_block with hbits | ⟨hbits, -, -⟩
  · rw [hbits, Option.map_some, ← hbits]
  · rw [hbits, Option.map_none, ← hbits]

/-- Other bytes in its place are the bitfield from then on. -/
theorem withBytes (h : HasBitfield peer bits rest) (hlen : bits'.length = bits.length) :
    HasBitfield (peer.withBytes (bits' ++ rest)) bits' rest := by
  refine ⟨?_, h.length.trans hlen.symm⟩
  rw [PeerT.withBytes]
  rcases h.cases_block with hbits | ⟨hbits, rfl, rfl⟩
  · rw [hbits]
    rfl
  · rw [hbits, List.length_eq_zero_iff.mp hlen]
    rfl

/-- What is recorded are the bits of the bitfield. -/
theorem recorded_eq (h : HasBitfield peer bits rest) (i : Nat) : recorded peer i = bitAt bits i := by
  rw [recorded, h.length]
  by_cases hi : i / 8 < bits.length
  · rcases h.cases_block with hbits | ⟨-, rfl, -⟩
    · rw [hbits, decide_eq_true hi, Bool.true_and, Option.map_some, Option.getD_some,
        bitAt_append hi]
    · exact absurd hi (Nat.not_lt_zero _)
  · rw [decide_eq_false hi, Bool.false_and, bitAt_eq_false_of_le (not_lt.mp hi)]

/-- The peer says the length of its bitfield, if there is nothing behind it. -/
theorem sized (h : HasBitfield peer bits []) (hnone : peer.bitfield = none → peer.bitfieldLength = 0) :
    Sized peer := by
  rw [Sized]
  rcases h.cases_block with hbits | ⟨hbits, -, -⟩
  · rw [hbits]
    exact h.length.trans (by rw [List.append_nil])
  · rw [hbits]
    exact hnone hbits

end HasBitfield

/-- Where the peer says the length of its bitfield, it has that bitfield. -/
theorem Sized.exists_hasBitfield (hs : Sized peer) :
    (∃ bits, HasBitfield peer bits []) ∧ (peer.bitfield = none → peer.bitfieldLength = 0) := by
  rw [Sized] at hs
  cases hbits : peer.bitfield with
  | none =>
      rw [hbits] at hs
      have hzero : peer.bitfieldLength = 0 := hs
      exact ⟨⟨[], by rw [hbits]; rfl, by rw [hzero]; rfl⟩, fun _ => hzero⟩
  | some bits =>
      rw [hbits] at hs
      exact ⟨⟨bits, by rw [hbits, List.append_nil]; rfl, hs⟩, fun h => by cases h⟩

/-- **One call** writes one bit of the bitfield, or none if the index is behind it. -/
theorem peerUpdateBitfieldIndex_eq {rest : List UInt8} (h : HasBitfield peer bits rest) (idx : UInt32)
    (newval : Bool) : peerUpdateBitfieldIndex peer idx newval =
      some (peer.withBytes (setBit bits idx.toNat newval ++ rest)) := by
  have hdiv : (idx / 8).toNat = idx.toNat / 8 := UInt32.toNat_div idx 8
  rw [peerUpdateBitfieldIndex]
  by_cases hout : idx / 8 ≥ UInt32.ofInt peer.bitfieldLength
  · rw [if_pos hout]
    rw [ge_iff_le, UInt32.le_iff_toNat_le, hdiv, h.length] at hout
    rw [setBit_of_le hout, h.withBytes_self]
  · rw [if_neg hout]
    rw [ge_iff_le, UInt32.le_iff_toNat_le, hdiv, h.length, not_le] at hout
    rw [PeerT.withBytes]
    rcases h.cases_block with hbits | ⟨-, rfl, -⟩
    · have hbyte : (bits ++ rest)[idx.toNat / 8]? = some bits[idx.toNat / 8] := by
        rw [List.getElem?_append_left hout, List.getElem?_eq_getElem hout]
      rw [hbits, Option.bind_eq_bind, Option.bind_some, hdiv, hbyte, Option.bind_eq_bind,
        Option.bind_some, maskOf_eq, ← setBit_append hout, setBit_of_getElem? hbyte]
      rfl
    · exact absurd hout (Nat.not_lt_zero _)

/-- **Writing one bit** records it if it lies inside the bitfield, and else changes nothing. -/
theorem peerUpdateBitfieldIndex_spec (hs : Sized peer) (idx : UInt32) (newval : Bool) :
    ∃ peer', peerUpdateBitfieldIndex peer idx newval = some peer' ∧ Sized peer' ∧
      peer'.bitfieldLength = peer.bitfieldLength ∧
      ∀ i, recorded peer' i =
        if i = idx.toNat ∧ i / 8 < (UInt32.ofInt peer.bitfieldLength).toNat then newval
        else recorded peer i := by
  obtain ⟨⟨bits, h⟩, hnone⟩ := hs.exists_hasBitfield
  have h' := @HasBitfield.withBytes _ _ (setBit bits idx.toNat newval) _ h length_setBit
  refine ⟨_, peerUpdateBitfieldIndex_eq h idx newval, h'.sized fun hmap => ?_, rfl, fun i => ?_⟩
  · exact hnone (Option.map_eq_none_iff.mp hmap)
  · rw [h'.recorded_eq, h.recorded_eq, h.length]
    by_cases hi : i / 8 < bits.length
    · rw [bitAt_setBit (by omega)]
      simp only [hi, and_true]
    · rw [if_neg fun hin => hi hin.2, bitAt_eq_false_of_le (by rw [length_setBit]; exact not_lt.mp hi),
        bitAt_eq_false_of_le (not_lt.mp hi)]

/-! ## What the loop records -/

/-- Piece `i` is among the last bitfield and the later `have`s inside it. -/
def Kept (msgs : List PeerMessage) (i : Nat) : Prop :=
  (∃ b, lastBitfield msgs = some b ∧ bitAt b.bitfield i = true) ∨
    i / 8 < lastLength msgs ∧ ∃ msg ∈ sinceBitfield msgs, IsHave i msg

/-! ## Decoded messages -/

/-- The buffer has the size `recv` was asked for, if `recv` writes no more than that. -/
theorem length_recvInto {σ : Type} {recv : Recv σ} {junk : Nat → UInt8} {n : Nat} {s s' : σ}
    {ret : Int} (hrecv : ∀ n s r, recv n s = some r → r.2.1.length ≤ n)
    (h : recvInto recv junk n s = some (ret, bits, s')) : bits.length = n := by
  rw [recvInto, Option.bind_eq_bind, Option.bind_eq_some_iff] at h
  obtain ⟨⟨ret', bytes, s₁⟩, hread, h⟩ := h
  have hle : bytes.length ≤ n := hrecv n s _ hread
  obtain ⟨_, hbits⟩ := Prod.mk.inj (Option.some.inj h)
  rw [← (Prod.mk.inj hbits).1, List.length_append, List.length_drop, List.length_map,
    List.length_range]
  omega

/-- The only branch that makes a bitfield allocates and reads as many bytes as it says. -/
theorem receiveFields_decoded {σ : Type} {recv : Recv σ} {junk : Nat → Nat → UInt8}
    {s s' : σ} {L : UInt32} {id : UInt8} {old : PeerMessage}
    (hrecv : ∀ n s r, recv n s = some r → r.2.1.length ≤ n)
    (h : receiveFields recv junk L id old s = some (msg, s')) : Decoded msg := by
  intro hbitfield
  by_cases h4 : id = 4
  · rw [h4, receiveFields_have, Option.map_eq_some_iff] at h
    obtain ⟨r, _, h⟩ := h
    cases h
    exact absurd hbitfield (by simp [IsBitfield])
  by_cases h5 : id = 5
  · rw [h5, receiveFields_bitfield, Option.map_eq_some_iff] at h
    obtain ⟨⟨ret, bits, s₁⟩, hread, h⟩ := h
    cases h
    exact length_recvInto hrecv hread
  by_cases h68 : id = 6 ∨ id = 8
  · rw [receiveFields_request _ _ _ _ _ h68, Option.bind_eq_some_iff] at h
    obtain ⟨r0, _, h⟩ := h
    rw [Option.bind_eq_some_iff] at h
    obtain ⟨r1, _, h⟩ := h
    rw [Option.map_eq_some_iff] at h
    obtain ⟨r2, _, h⟩ := h
    cases h
    rw [IsBitfield] at hbitfield
    split_ifs at hbitfield
  by_cases h7 : id = 7
  · rw [h7, receiveFields_piece, Option.bind_eq_some_iff] at h
    obtain ⟨r0, _, h⟩ := h
    rw [Option.bind_eq_some_iff] at h
    obtain ⟨r1, _, h⟩ := h
    rw [Option.map_eq_some_iff] at h
    obtain ⟨r2, _, h⟩ := h
    cases h
    exact absurd hbitfield (by simp [IsBitfield])
  rw [receiveFields, if_neg h4, if_neg h5, if_neg h68, if_neg h7] at h
  split_ifs at h
  all_goals
    cases h
    exact absurd hbitfield (by simp [IsBitfield])

/-- **A message that was received is decoded**, however the stream is cut. -/
theorem receivePeerMessage_decoded {σ : Type} {recv : Recv σ} {junk : Nat → Nat → UInt8}
    {s s' : σ} {n : Int} {old : PeerMessage}
    (hrecv : ∀ n s r, recv n s = some r → r.2.1.length ≤ n)
    (h : receivePeerMessage recv junk old s = some (n, msg, s')) : Decoded msg := by
  rw [receivePeerMessage] at h
  simp only [Option.bind_eq_bind, Option.bind_eq_some_iff] at h
  obtain ⟨⟨n0, buf, s₁⟩, _, ⟨n1, buf', s₂⟩, _, ⟨msg', s₃⟩, hfields, h⟩ := h
  obtain ⟨_, hmsg⟩ := Prod.mk.inj (Option.some.inj h)
  obtain ⟨rfl, rfl⟩ := Prod.mk.inj hmsg
  exact receiveFields_decoded hrecv hfields

/-- Recording nothing. -/
theorem recorded_newPeer (ip port : UInt32) (status : PeerStatus) (i : Nat) :
    recorded (newPeer ip port status) i = false := by
  rw [recorded]
  exact Bool.and_false _

/-- A bitfield replaces what was kept. -/
theorem kept_concat_of_isBitfield (h : IsBitfield msg) (i : Nat) :
    Kept (msgs ++ [msg]) i ↔ bitAt msg.bitfield i = true := by
  rw [Kept, lastBitfield_concat_of_isBitfield h, sinceBitfield_concat_of_isBitfield h]
  simp

/-- Any other message adds its piece, if it has one inside the bitfield. -/
theorem kept_concat_of_not (h : ¬ IsBitfield msg) (i : Nat) :
    Kept (msgs ++ [msg]) i ↔ Kept msgs i ∨ i / 8 < lastLength msgs ∧ IsHave i msg := by
  rw [Kept, Kept, lastLength, lastLength, lastBitfield_concat_of_not h,
    sinceBitfield_concat_of_not h]
  simp only [List.mem_append, List.mem_singleton]
  constructor
  · rintro (hb | ⟨hlt, m, hm | rfl, hi⟩)
    · exact Or.inl (Or.inl hb)
    · exact Or.inl (Or.inr ⟨hlt, m, hm, hi⟩)
    · exact Or.inr ⟨hlt, hi⟩
  · rintro ((hb | ⟨hlt, m, hm, hi⟩) | ⟨hlt, hi⟩)
    · exact Or.inl hb
    · exact Or.inr ⟨hlt, m, Or.inl hm, hi⟩
    · exact Or.inr ⟨hlt, msg, Or.inr rfl, hi⟩

/-- What holds of the peer after the messages. -/
structure Records (peer : PeerT) (msgs : List PeerMessage) : Prop where
  /-- The bitfield has the length the peer says. -/
  sized : Sized peer
  /-- It is the length of the last bitfield. -/
  length : (UInt32.ofInt peer.bitfieldLength).toNat = lastLength msgs
  /-- The pieces recorded are those kept. -/
  recorded_iff : ∀ i, recorded peer i = true ↔ Kept msgs i

/-- A message that is neither a bitfield nor a `have` is not recorded. -/
theorem Records.concat_of_other (hr : Records peer msgs) (hb : msg.type ≠ .msgBitfield)
    (hh : msg.type ≠ .msgHave) (hlen : peer'.bitfieldLength = peer.bitfieldLength)
    (hbits : peer'.bitfield = peer.bitfield) : Records peer' (msgs ++ [msg]) where
  sized := by
    rw [Sized, hlen, hbits]
    exact hr.sized
  length := by
    rw [hlen, hr.length, lastLength, lastLength, lastBitfield_concat_of_not hb]
  recorded_iff i := by
    rw [recorded, hlen, hbits, kept_concat_of_not hb, ← hr.recorded_iff, recorded]
    exact ⟨Or.inl, fun h => h.resolve_right fun hi => hh hi.2.1⟩

/-- **One turn of the loop** keeps what is recorded in step with what is kept. -/
theorem handleMessage_spec (hr : Records peer msgs) (hd : Decoded msg) :
    ∃ peer', handleMessage peer msg = some peer' ∧ Records peer' (msgs ++ [msg]) := by
  by_cases hb : msg.type = .msgBitfield
  · obtain ⟨peer', hrun, hs, hlen, hrec⟩ := peerUpdateBitfield_spec peer (hd hb)
    refine ⟨peer', by rw [handleMessage, hb]; exact hrun, hs, ?_, fun i => ?_⟩
    · rw [hlen, ofInt_intOfUInt, lastLength, lastBitfield_concat_of_isBitfield hb]
      rfl
    · rw [hrec, kept_concat_of_isBitfield hb]
  · by_cases hh : msg.type = .msgHave
    · obtain ⟨peer', hrun, hs, hlen, hrec⟩ := peerUpdateBitfieldIndex_spec hr.sized msg.word0 true
      refine ⟨peer', by rw [handleMessage, hh]; exact hrun, hs, ?_, fun i => ?_⟩
      · rw [hlen, hr.length, lastLength, lastLength, lastBitfield_concat_of_not hb]
      · rw [hrec, kept_concat_of_not hb, ← hr.recorded_iff, ← hr.length]
        split_ifs with hi
        · exact ⟨fun _ => Or.inr ⟨hi.2, hh, hi.1.symm⟩, fun _ => rfl⟩
        · exact ⟨Or.inl, fun h => h.resolve_right fun h' => hi ⟨h'.2.2.symm, h'.1⟩⟩
    · rw [handleMessage]
      cases htype : msg.type with
      | msgBitfield => exact absurd htype hb
      | msgHave => exact absurd htype hh
      | _ => exact ⟨_, rfl, hr.concat_of_other hb hh rfl rfl⟩

/-- **What the loop records** is the last bitfield and the later `have`s that lie inside it. -/
theorem handleAll_spec (ip port : UInt32) (status : PeerStatus) (hd : ∀ msg ∈ msgs, Decoded msg) :
    ∃ peer, handleAll (newPeer ip port status) msgs = some peer ∧ Records peer msgs := by
  induction msgs using List.reverseRecOn with
  | nil =>
      refine ⟨newPeer ip port status, rfl, rfl, rfl, fun i => ?_⟩
      rw [recorded_newPeer]
      simp [Kept, lastBitfield, sinceBitfield]
  | append_singleton msgs msg ih =>
      obtain ⟨peer, hrun, hr⟩ := ih fun m hm => hd m (List.mem_append_left _ hm)
      obtain ⟨peer', hstep, hr'⟩ := handleMessage_spec hr (hd msg (by simp))
      exact ⟨peer', foldlM_concat_eq_some_iff.mpr ⟨peer, hrun, hstep⟩, hr'⟩

/-- A bit of the last bitfield lies inside it. -/
theorem lt_lastLength_of_bitAt (hd : ∀ msg ∈ msgs, Decoded msg) (hb : lastBitfield msgs = some b)
    {i : Nat} (hi : bitAt b.bitfield i = true) : i / 8 < lastLength msgs := by
  have hmem : b ∈ msgs.filter (IsBitfield ·) := List.mem_of_getLast? hb
  rw [List.mem_filter, decide_eq_true_eq] at hmem
  rw [lastLength, hb]
  show i / 8 < b.word0.toNat
  rw [← hd b hmem.1 hmem.2]
  by_contra hle
  rw [bitAt_eq_false_of_le (not_lt.mp hle)] at hi
  exact absurd hi (by simp)

/-- **No announcement is lost** exactly if every `have` behind the last bitfield lies inside that
bitfield. -/
theorem announcements_recorded_iff (ip port : UInt32) (status : PeerStatus) (msgs : List PeerMessage)
    (hd : ∀ msg ∈ msgs, Decoded msg) :
    ∃ peer, handleAll (newPeer ip port status) msgs = some peer ∧
      ((∀ i, recorded peer i = true ↔ Announced msgs i) ↔
        ∀ msg ∈ sinceBitfield msgs, msg.type = .msgHave →
          msg.word0.toNat / 8 < lastLength msgs) := by
  obtain ⟨peer, hrun, hr⟩ := handleAll_spec ip port status hd
  refine ⟨peer, hrun, ?_⟩
  simp only [hr.recorded_iff]
  constructor
  · intro h msg hmem hhave
    rcases (h msg.word0.toNat).mpr (Or.inr ⟨msg, hmem, hhave, rfl⟩) with ⟨b, hb, hi⟩ | ⟨hlt, _⟩
    · exact lt_lastLength_of_bitAt hd hb hi
    · exact hlt
  · intro h i
    constructor
    · rintro (hb | ⟨_, hhave⟩)
      · exact Or.inl hb
      · exact Or.inr hhave
    · rintro (hb | ⟨msg, hmem, hhave, rfl⟩)
      · exact Or.inl hb
      · exact Or.inr ⟨h msg hmem hhave, msg, hmem, hhave, rfl⟩

/-- A `have` of piece `i`. -/
def haveMessage (i : UInt32) : PeerMessage := ⟨.msgHave, i, 0, 0, [], []⟩

/-- A bitfield. -/
def bitfieldMessage (bits : List UInt8) : PeerMessage :=
  ⟨.msgBitfield, UInt32.ofNat bits.length, 0, 0, bits, []⟩

/-- A bitfield of one byte, and a `have` inside it. -/
theorem announcements_recorded_iff_example :
    ∃ peer, handleAll (newPeer 1 6881 .new) [bitfieldMessage [0x80], haveMessage 3] = some peer ∧
      ((∀ i, recorded peer i = true ↔
          Announced [bitfieldMessage [0x80], haveMessage 3] i) ↔
        ∀ msg ∈ sinceBitfield [bitfieldMessage [0x80], haveMessage 3], msg.type = .msgHave →
          msg.word0.toNat / 8 < lastLength [bitfieldMessage [0x80], haveMessage 3]) := by
  apply announcements_recorded_iff
  intro msg hmsg
  simp only [List.mem_cons, List.not_mem_nil, or_false] at hmsg
  rcases hmsg with rfl | rfl
  · exact fun _ => rfl
  · exact fun h => absurd h (by decide)

/-- A peer that sends no bitfield announces piece `0`, and nothing is recorded. -/
theorem have_without_bitfield_lost :
    handleAll (newPeer 1 6881 .new) [haveMessage 0] = some (newPeer 1 6881 .new) ∧
      recorded (newPeer 1 6881 .new) 0 = false ∧ Announced [haveMessage 0] 0 := by
  refine ⟨by decide +kernel, by decide +kernel, Or.inr ⟨haveMessage 0, ?_, rfl, rfl⟩⟩
  decide +kernel

end Flood.Peer
