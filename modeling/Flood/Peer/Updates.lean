import Flood.Peer.Bitfield

/-!
# Updates of single pieces

Any sequence of calls of `peer_update_bitfield_index` on one bitfield.

* `HasBitfield.of_length`, `HasBitfield.newPeer`, `HasBitfield.peerUpdateBitfield` — where a peer has
  a bitfield.
* `updateAll_eq` — a sequence of calls is a history of writes to it.
* `updates_independent` — a bit is what was written to it last, an index behind the bitfield changes
  nothing, and updates of different pieces commute.
-/

namespace Flood.Peer

open Flood.Lib

variable {peer : PeerT} {bits rest : List UInt8}

/-- The calls with these indices and values. -/
def updateAll (peer : PeerT) (updates : List (UInt32 × Bool)) : Option PeerT :=
  updates.foldlM (fun peer u => peerUpdateBitfieldIndex peer u.1 u.2) peer

/-- The bits written by the calls. -/
def writesOf (updates : List (UInt32 × Bool)) : List (Nat × Bool) :=
  updates.map fun u => (u.1.toNat, u.2)

/-! ## Where there is a bitfield -/

namespace HasBitfield

/-- A bitfield of which the peer says the length, as an `int`. -/
theorem of_length (hblock : peer.bitfield = some (bits ++ rest))
    (hlen : peer.bitfieldLength = bits.length) (hmax : (bits.length : Int) ≤ intMax) :
    HasBitfield peer bits rest := by
  obtain ⟨hof, hnat⟩ := ofInt_natCast hmax
  refine ⟨by rw [hblock]; rfl, ?_⟩
  rw [hlen, hof, hnat]

/-- A new peer has an empty bitfield. -/
theorem newPeer (ip port : UInt32) (status : PeerStatus) :
    HasBitfield (Peer.newPeer ip port status) [] [] :=
  ⟨rfl, rfl⟩

/-- A whole bitfield that is received is the bitfield of the peer. -/
theorem peerUpdateBitfield {peer' : PeerT} {newBitfield : List UInt8} {newLen : UInt32}
    (h : Peer.peerUpdateBitfield peer newBitfield newLen = some peer') :
    HasBitfield peer' (newBitfield.take newLen.toNat) [] := by
  obtain ⟨len, hlen⟩ : ∃ len, intOfUInt newLen = len := ⟨_, rfl⟩
  have hof : UInt32.ofInt len = newLen := by rw [← hlen, ofInt_intOfUInt]
  rw [Peer.peerUpdateBitfield, Option.ite_none_right_eq_some, hlen] at h
  obtain ⟨hle, h⟩ := h
  obtain rfl := Option.some.inj h
  refine ⟨(List.append_nil _).symm, ?_⟩
  rw [hof, List.length_take, min_eq_left hle]

end HasBitfield

/-! ## Sequences of updates -/

/-- **A sequence of calls** is a history of writes to the bitfield. -/
theorem updateAll_eq (h : HasBitfield peer bits rest) (updates : List (UInt32 × Bool)) :
    updateAll peer updates =
      some (peer.withBytes (writeBits bits (writesOf updates) ++ rest)) := by
  induction updates generalizing peer bits with
  | nil => exact congrArg some h.withBytes_self.symm
  | cons u updates ih =>
      obtain ⟨idx, newval⟩ := u
      rw [updateAll, List.foldlM_cons, Option.bind_eq_bind, peerUpdateBitfieldIndex_eq h,
        Option.bind_some]
      exact (ih (h.withBytes length_setBit)).trans (by rw [withBytes_withBytes]; rfl)

/-- **Updates are independent.** The calls complete and write nothing but the bitfield; a bit of it is
then what was written to it last, or what it was. An index behind the bitfield changes nothing, and
updates of different pieces commute. -/
theorem updates_independent (h : HasBitfield peer bits rest) :
    (∀ updates, ∃ bits', updateAll peer updates = some (peer.withBytes (bits' ++ rest)) ∧
      bits'.length = bits.length ∧ ∀ i < 8 * bits.length,
        bitAt bits' i = (lastWrite (writesOf updates) i).getD (bitAt bits i)) ∧
    (∀ pre post idx newval, 8 * bits.length ≤ idx.toNat →
      updateAll peer (pre ++ (idx, newval) :: post) = updateAll peer (pre ++ post)) ∧
    ∀ pre post idx idx' newval newval', idx ≠ idx' →
      updateAll peer (pre ++ (idx, newval) :: (idx', newval') :: post) =
        updateAll peer (pre ++ (idx', newval') :: (idx, newval) :: post) := by
  refine ⟨fun updates => ?_, fun pre post idx newval hidx => ?_,
    fun pre post idx idx' newval newval' hne => ?_⟩
  · exact ⟨_, updateAll_eq h updates, length_writeBits, fun i hi => bitAt_writeBits hi⟩
  · have hout : (writeBits bits (writesOf pre)).length ≤ idx.toNat / 8 := by
      rw [length_writeBits]
      omega
    rw [updateAll_eq h, updateAll_eq h]
    simp only [writesOf, List.map_append, List.map_cons, writeBits_append, writeBits_cons] at hout ⊢
    rw [setBit_of_le hout]
  · have hne' : idx.toNat ≠ idx'.toNat := fun heq => hne (UInt32.toNat_inj.mp heq)
    rw [updateAll_eq h, updateAll_eq h]
    simp only [writesOf, List.map_append, List.map_cons, writeBits_append, writeBits_cons]
    rw [setBit_comm hne']

/-- A bitfield of two bytes, with one more behind it in memory. -/
def twoBytes : PeerT :=
  { newPeer 1 6881 .new with bitfield := some ([0x80, 0x01] ++ [0xff]), bitfieldLength := 2 }

/-- Four calls, of which the last is behind the bitfield. -/
theorem updates_independent_example :
    ∃ bits', updateAll twoBytes [(0, false), (9, true), (0, true), (16, false)] =
        some (twoBytes.withBytes (bits' ++ [0xff])) ∧ bits'.length = 2 ∧
      ∀ i < 16, bitAt bits' i =
        (lastWrite (writesOf [(0, false), (9, true), (0, true), (16, false)]) i).getD
          (bitAt [0x80, 0x01] i) := by
  have hbits : HasBitfield twoBytes [0x80, 0x01] [0xff] := .of_length rfl rfl (by decide)
  exact (updates_independent hbits).1 _

end Flood.Peer
