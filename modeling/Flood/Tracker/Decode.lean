import Flood.Tracker.Report

/-!
# Decoding an announce response

* `announceResp bytes` — the struct a datagram stands for: its fields in network order, and a peer for
  every six bytes from byte 20 on.
* `decoded_iff` — `receive_announce_response` delivers it, whatever the struct and the buffer held
  before, iff the datagram ends with a peer and is not without peers, unless the pointer that is not
  written was `NULL`.
-/

namespace Flood.Tracker

open Flood.Lib

variable {bytes : List UInt8}

/-- The number in network order in the `n` bytes from `i` on. -/
def numberAt (bytes : List UInt8) (i n : Nat) : UInt32 := UInt32.ofNat (bigEndian ((bytes.drop i).take n))

/-- The peer in six bytes: an address of 32 bits and a port of 16. -/
def encodedPeer (bytes : List UInt8) (i : Nat) : UdptPeer := ⟨numberAt bytes i 4, numberAt bytes (i + 4) 2⟩

/-- The struct that a datagram stands for. -/
def announceResp (bytes : List UInt8) : AnnounceResp where
  action := numberAt bytes 0 4
  transactionId := numberAt bytes 4 4
  interval := numberAt bytes 8 4
  leechers := numberAt bytes 12 4
  seeders := numberAt bytes 16 4
  peerCount := ((bytes.length - 20) / 6 : Nat)
  peers := .chain ((List.range ((bytes.length - 20) / 6)).map fun k => encodedPeer bytes (20 + 6 * k))

/-! ## Numbers -/

/-- `ntohl` reads a number in network order. -/
theorem netWord_eq {i : Nat} (h : i + 4 ≤ bytes.length) : netWord bytes i = numberAt bytes i 4 := by
  unfold netWord numberAt
  apply bswap32_leWord
  rw [List.length_take, List.length_drop]
  omega

/-- `ntohs` reads a number in network order. -/
theorem netShort_eq {i : Nat} (h : i + 2 ≤ bytes.length) : netShort bytes i = numberAt bytes i 2 := by
  have hdrop : bytes.drop i = bytes.getD i 0 :: bytes.getD (i + 1) 0 :: bytes.drop (i + 2) := by
    rw [List.drop_eq_getElem_cons (by omega), List.drop_eq_getElem_cons (by omega)]
    rw [List.getD_eq_getElem?_getD, List.getD_eq_getElem?_getD, List.getElem?_eq_getElem (by omega),
      List.getElem?_eq_getElem (by omega)]
    rfl
  unfold netShort numberAt ofBytes bigEndian
  rw [hdrop]
  simp only [List.take_succ_cons, List.take_zero, List.foldl_cons, List.foldl_nil]
  congr 1
  simp
  omega

/-- The peers of a datagram are read in network order. -/
theorem encodedPeers_eq : encodedPeers bytes =
    (List.range ((bytes.length - 20) / 6)).map fun k => encodedPeer bytes (20 + 6 * k) := by
  unfold encodedPeers
  apply List.map_congr_left
  intro k hk
  rw [List.mem_range] at hk
  unfold peerAt encodedPeer
  rw [netWord_eq (by omega), netShort_eq (by omega)]

/-! ## The struct -/

/-- The fields of a datagram that fits the buffer. -/
theorem receiveAnnounceResponse_eq (junk : List UInt8) (res : AnnounceResp) (hmin : 20 ≤ bytes.length)
    (hmax : bytes.length ≤ 1022) :
    (receiveAnnounceResponse junk res (some bytes)).2 = { announceResp bytes with
      peers := if bytes.length = 20 then res.peers else .chain (readPeers junk (some bytes)) } := by
  have hall : received 1022 (some bytes) = bytes := List.take_of_length_le hmax
  have hsize : recvSize 1022 (some bytes) = bytes.length := by
    unfold recvSize
    rw [hall]
    rfl
  have hpeers := receiveAnnounceResponse_peers junk res hmin
  have hlong : ¬ recvSize 1022 (some bytes) < 20 := by
    rw [hsize]
    omega
  unfold receiveAnnounceResponse at hpeers ⊢
  rw [if_neg hlong] at hpeers ⊢
  dsimp only at hpeers ⊢
  rw [hpeers, hall, hsize, netWord_eq (by omega), netWord_eq (by omega), netWord_eq (by omega),
    netWord_eq (by omega), netWord_eq (by omega)]
  have hcount : ((bytes.length : Int) - 20) / 6 = ((bytes.length - 20) / 6 : Nat) := by omega
  rw [hcount]
  rfl

/-- **When an announce response is decoded from its own bytes.** The struct is the one the datagram
stands for iff the datagram ends with a peer, and has one unless `res->peers` was `NULL`. -/
theorem decoded_iff (junk : List UInt8) (res : AnnounceResp) (hmin : 20 ≤ bytes.length)
    (hmax : bytes.length ≤ 1022) :
    (receiveAnnounceResponse junk res (some bytes)).2 = announceResp bytes ↔
      6 ∣ bytes.length - 20 ∧ (bytes.length = 20 → res.peers = .chain []) := by
  rw [receiveAnnounceResponse_eq junk res hmin hmax]
  unfold announceResp
  simp only [AnnounceResp.mk.injEq, true_and, ← encodedPeers_eq]
  split_ifs with hlen
  · have hnone : encodedPeers bytes = [] := by
      unfold encodedPeers
      rw [hlen]
      rfl
    rw [hnone, hlen]
    simp
  · rw [PeerList.chain.injEq, readPeers_eq_encodedPeers_iff junk hmin]
    constructor
    · rintro ⟨hdvd, -⟩
      exact ⟨hdvd hmax, fun h => absurd h hlen⟩
    · rintro ⟨hdvd, -⟩
      exact ⟨fun _ => hdvd, by omega⟩

/-- A response with one peer, decoded into a struct with a wild pointer. -/
theorem decoded_iff_example :
    (receiveAnnounceResponse [7, 7] ⟨9, 9, 9, 9, 9, 9, .wild⟩ (some (List.replicate 26 0))).2 =
        announceResp (List.replicate 26 0) ↔
      6 ∣ 26 - 20 ∧ (26 = 20 → PeerList.wild = .chain []) :=
  decoded_iff [7, 7] ⟨9, 9, 9, 9, 9, 9, .wild⟩ (by decide) (by decide)

/-- Of a response with one byte too many a peer is read that is not counted, from bytes that were not
received. -/
theorem uncounted_peer :
    ¬ ∀ (junk : List UInt8) (res : AnnounceResp) (bytes : List UInt8), 20 ≤ bytes.length →
      bytes.length ≤ 1022 →
      (receiveAnnounceResponse junk res (some bytes)).2 = announceResp bytes := by
  intro hall
  have h := hall [] ⟨0, 0, 0, 0, 0, 0, .chain []⟩ (List.replicate 21 0) (by decide) (by decide)
  exact absurd (congrArg AnnounceResp.peers h) (by decide +kernel)

end Flood.Tracker
