import Flood.Peer.Frames

/-!
# Lengths of payloads

* `receiveHeader` — the prefix and the id that `receive_peer_message` has read before it looks at
  either.
* `ExactPayload L msg` — the length stored in `msg` is what the prefix `L` leaves for the payload, as
  an exact number.
* `exactPayload_iff` — whatever `recv` does, it is so iff the prefix counts the id and the fields of
  its kind: nothing is rejected, and the subtraction wraps.
-/

namespace Flood.Peer

open Flood.Lib

variable {σ : Type} {recv : Recv σ} {junk : Nat → Nat → UInt8} {s s₁ s' : σ} {n n₁ : Int} {L : UInt32}
  {id : UInt8} {msg msg' : PeerMessage}

/-- The calls of `recv` for the prefix and the id: the count so far, both numbers, and the socket. -/
def receiveHeader (recv : Recv σ) (junk : Nat → Nat → UInt8) (s : σ) :
    Option (Int × UInt32 × UInt8 × σ) := do
  let (n0, buf0, s) ← recvInto recv (junk 0) 4 s
  let (n1, buf1, s) ← recvInto recv (junk 1) 1 s
  some (n0 + n1, bswap32 (leWord buf0), buf1.headD 0, s)

/-- What is left of the prefix `L` for the payload is stored as its length, without wrapping: `L` is
`1` more than the length of a bitfield, and `9` more than that of a piece. -/
structure ExactPayload (L : UInt32) (msg : PeerMessage) : Prop where
  /-- The id comes before a bitfield. -/
  bitfield : msg.type = .msgBitfield → L.toNat = 1 + msg.word0.toNat
  /-- The id and two fields come before a piece. -/
  piece : msg.type = .msgPiece → L.toNat = 9 + msg.word2.toNat

/-- A message is its prefix and id, and the fields they select. -/
theorem exists_header (h : receivePeerMessage recv junk msg s = some (n, msg', s')) :
    ∃ L id s₁, receiveHeader recv junk s = some (n, L, id, s₁) ∧
      receiveFields recv junk L id (if L = 0 then { msg with type := .msgKeepalive } else msg) s₁ =
        some (msg', s') := by
  rw [receivePeerMessage] at h
  simp only [Option.bind_eq_bind, Option.bind_eq_some_iff] at h
  obtain ⟨⟨n0, buf0, s₀⟩, hpre, ⟨n1, buf1, s₁⟩, hid, ⟨msg₁, s₂⟩, hfields, h⟩ := h
  obtain ⟨rfl, hmsg⟩ := Prod.mk.inj (Option.some.inj h)
  obtain ⟨rfl, rfl⟩ := Prod.mk.inj hmsg
  refine ⟨bswap32 (leWord buf0), buf1.headD 0, s₁, ?_, hfields⟩
  simp only [receiveHeader, hpre, hid, Option.bind_eq_bind, Option.bind_some]

/-- A request has no payload, and neither has a cancel. -/
theorem stored_of_request (hid : id = 6 ∨ id = 8)
    (h : receiveFields recv junk L id msg s = some (msg', s')) :
    (msg'.type = .msgBitfield ↔ id = 5) ∧ (msg'.type = .msgPiece ↔ id = 7) ∧
      (id = 5 → msg'.word0 = L - 1) ∧ (id = 7 → msg'.word2 = L - 9) := by
  rw [receiveFields_request recv junk L msg s hid] at h
  obtain ⟨r0, -, h⟩ := Option.bind_eq_some_iff.mp h
  obtain ⟨r1, -, h⟩ := Option.bind_eq_some_iff.mp h
  obtain ⟨r2, -, hmsg⟩ := Option.map_eq_some_iff.mp h
  obtain ⟨rfl, -⟩ := Prod.mk.inj hmsg
  rcases hid with rfl | rfl
  all_goals simp

/-- The id selects the kind, and a length is what the subtraction gives. -/
theorem stored_of_receiveFields (h : receiveFields recv junk L id msg s = some (msg', s')) :
    (msg'.type = .msgBitfield ↔ id = 5) ∧ (msg'.type = .msgPiece ↔ id = 7) ∧
      (id = 5 → msg'.word0 = L - 1) ∧ (id = 7 → msg'.word2 = L - 9) := by
  rcases id_cases id with rfl | rfl | hid | rfl | hid
  · rw [receiveFields_have] at h
    obtain ⟨r, -, hmsg⟩ := Option.map_eq_some_iff.mp h
    obtain ⟨rfl, -⟩ := Prod.mk.inj hmsg
    simp
  · rw [receiveFields_bitfield] at h
    obtain ⟨r, -, hmsg⟩ := Option.map_eq_some_iff.mp h
    obtain ⟨rfl, -⟩ := Prod.mk.inj hmsg
    simp
  · exact stored_of_request hid h
  · rw [receiveFields_piece] at h
    obtain ⟨r0, -, h⟩ := Option.bind_eq_some_iff.mp h
    obtain ⟨r1, -, h⟩ := Option.bind_eq_some_iff.mp h
    obtain ⟨r2, -, hmsg⟩ := Option.map_eq_some_iff.mp h
    obtain ⟨rfl, -⟩ := Prod.mk.inj hmsg
    simp
  · obtain ⟨type, hbitfield, hpiece, hother⟩ := receiveFields_other recv junk L msg s hid
    rw [hother] at h
    obtain ⟨rfl, -⟩ := Prod.mk.inj (Option.some.inj h)
    simp only [List.mem_cons, List.not_mem_nil, or_false, not_or] at hid
    obtain ⟨-, h5, -, h7, -⟩ := hid
    exact ⟨iff_of_false hbitfield h5, iff_of_false hpiece h7, fun h' => absurd h' h5,
      fun h' => absurd h' h7⟩

/-- A difference is exact iff it does not wrap. -/
theorem eq_add_toNat_sub_iff (L k : UInt32) : L.toNat = k.toNat + (L - k).toNat ↔ k.toNat ≤ L.toNat := by
  have hL := L.toNat_lt
  have hk := k.toNat_lt
  rw [UInt32.toNat_sub]
  omega

/-- **When the length of a payload is exact.** Whatever bytes come, in whatever pieces, a message that
is received has an exact length iff the prefix counts the id of a bitfield, and the id and the two
fields of a piece. -/
theorem exactPayload_iff (h : receivePeerMessage recv junk msg s = some (n, msg', s')) :
    ∃ L id s₁, receiveHeader recv junk s = some (n, L, id, s₁) ∧
      (ExactPayload L msg' ↔ (id = 5 → 1 ≤ L.toNat) ∧ (id = 7 → 9 ≤ L.toNat)) := by
  obtain ⟨L, id, s₁, hheader, hfields⟩ := exists_header h
  obtain ⟨hbitfield, hpiece, hword0, hword2⟩ := stored_of_receiveFields hfields
  refine ⟨L, id, s₁, hheader, ?_⟩
  constructor
  · intro hexact
    refine ⟨fun hid => ?_, fun hid => ?_⟩
    · have hlen := hexact.bitfield (hbitfield.mpr hid)
      omega
    · have hlen := hexact.piece (hpiece.mpr hid)
      omega
  · rintro ⟨hone, hnine⟩
    refine ⟨fun htype => ?_, fun htype => ?_⟩
    · have hid := hbitfield.mp htype
      rw [hword0 hid]
      exact (eq_add_toNat_sub_iff L 1).mpr (hone hid)
    · have hid := hpiece.mp htype
      rw [hword2 hid]
      exact (eq_add_toNat_sub_iff L 9).mpr (hnine hid)

/-- The equivalence at a `have`. -/
theorem exactPayload_iff_example :
    ∃ L id s₁, receiveHeader recvFull (fun _ _ => 0) [0, 0, 0, 5, 4, 0, 0, 0, 1] = some (5, L, id, s₁) ∧
      (ExactPayload L ⟨.msgHave, 1, 0, 0, [], []⟩ ↔ (id = 5 → 1 ≤ L.toNat) ∧ (id = 7 → 9 ≤ L.toNat)) :=
  exactPayload_iff (show receivePeerMessage recvFull (fun _ _ => 0) ⟨.msgUnknown, 0, 0, 0, [], []⟩
    [0, 0, 0, 5, 4, 0, 0, 0, 1] = some (5, ⟨.msgHave, 1, 0, 0, [], []⟩, []) by decide)

/-- A `recv` that returns what has arrived. -/
def recvArrived : Recv (List UInt8) := fun n s => some ((s.take n).length, s.take n, s.drop n)

/-- A keep-alive followed by the id of a bitfield gives a bitfield of `2 ^ 32 - 1` bytes. -/
theorem keepalive_wraps :
    ¬ ∀ (junk : Nat → Nat → UInt8) (msg msg' : PeerMessage) (s s' : List UInt8) (n : Int),
      receivePeerMessage recvArrived junk msg s = some (n, msg', s') →
      ∃ L id s₁, receiveHeader recvArrived junk s = some (n, L, id, s₁) ∧ ExactPayload L msg' := by
  intro hall
  have hpre : Delivers recvArrived [0, 0, 0, 0, 5] (networkBytes 0) [5] := fun _ => rfl
  have hid : Delivers recvArrived [5] [5] [] := fun _ => rfl
  have hnothing : ∀ k, recvInto recvArrived (fun _ => 0) k [] =
      some (0, (List.range k).map fun _ => 0, []) := by
    intro k
    simp [recvInto, recvArrived]
  have hmsg := receivePeerMessage_of_delivers hpre hid (fun _ _ => 0) ⟨.msgUnknown, 0, 0, 0, [], []⟩
  rw [receiveFields_bitfield, hnothing] at hmsg
  obtain ⟨L, id, s₁, hheader, hexact⟩ := hall _ _ _ _ _ _ hmsg
  have hread : receiveHeader recvArrived (fun _ _ => 0) [0, 0, 0, 0, 5] = some (5, 0, 5, []) := by
    decide
  rw [hread] at hheader
  obtain ⟨-, rfl, -⟩ := hheader
  exact absurd (hexact.bitfield rfl) (by decide)

end Flood.Peer
