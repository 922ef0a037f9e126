import Flood.Client.AnyNetwork

/-!
# What the client makes of the whole swarm

From the connections to the numbers printed: the peers of the list are talked to, each over a network of
its own, and then `calculate_total_availability` is called.

* `Visit` — a peer, and what its calls to the system return; `Visit.heard` — the messages that are read.
* `overview` — the numbers, by the messages alone: the pieces kept of the peers whose last bitfield has
  the length of the first peer's that counts.
* `calculate_of_records` — these are what the function finds in records that say what was heard.
* `availability_of_visits` — so it is after talks over any networks; of a peer that keeps to the protocol
  all messages are heard, and of one with another torrent none.
-/

namespace Flood.Client

open Flood.Lib Flood.Peer

variable {σ : Type} {me : Identity} {p : PeerT} {peers : List PeerT} {msgs : List PeerMessage}
  {histories : List (List PeerMessage)} {len : Nat}

/-! ## By the messages alone -/

/-- Whether a piece is kept can be computed. -/
instance (msgs : List PeerMessage) (i : Nat) : Decidable (Kept msgs i) :=
  decidable_of_iff ((lastBitfield msgs).any (fun b => bitAt b.bitfield i) = true ∨
    i / 8 < lastLength msgs ∧ ∃ msg ∈ sinceBitfield msgs, IsHave i msg) <| by
      rw [Option.any_eq_true]
      rfl

/-- The last bitfield counts: it is not empty, and its length is an `int`. -/
def Counts (msgs : List PeerMessage) : Prop :=
  1 ≤ lastLength msgs ∧ (lastLength msgs : Int) ≤ intMax

instance : DecidablePred Counts := fun _ => inferInstanceAs (Decidable (_ ∧ _))

/-- How many pieces are kept of peers whose last bitfield has `len` bytes. -/
def keptOf (histories : List (List PeerMessage)) (len : Nat) : Nat :=
  (List.range (8 * len)).countP fun i =>
    histories.any fun msgs => lastLength msgs = len ∧ Kept msgs i

/-- The two numbers, by what each peer of the list has said. -/
def overview (histories : List (List PeerMessage)) : Int × Int :=
  match histories.find? (Counts ·) with
  | none => (0, 0)
  | some msgs => (wrap32 (keptOf histories (lastLength msgs)), wrap32 (8 * lastLength msgs))

/-! ## Records that say what was heard -/

/-- The record of a peer is that of some messages. -/
structure RecordOf (msgs : List PeerMessage) (p : PeerT) : Prop where
  /-- It says what they say. -/
  records : Records p msgs
  /-- It is stored well. -/
  stored : Stored p

/-- The length of a last bitfield that counts is that of the record. -/
theorem RecordOf.bitfieldLength_eq (h : RecordOf msgs p) (hc : Counts msgs) :
    p.bitfieldLength = lastLength msgs := by
  have hlen := h.records.length
  have hfits := h.stored.fits
  obtain ⟨hpos, hmax⟩ := hc
  have hmod : (UInt32.ofInt p.bitfieldLength).toNat = (p.bitfieldLength % 4294967296).toNat := by
    rw [UInt32.ofInt, UInt32.toNat_ofNat_of_lt']
    · norm_num
    · norm_num
      omega
  unfold FitsInt intMin intMax at hfits
  unfold intMax at hmax
  rw [hmod] at hlen
  omega

/-- The bitfield of a peer that counts. -/
theorem RecordOf.block_of_counts (h : RecordOf msgs p) (hc : Counts msgs) :
    ∃ bits, block p = some bits ∧ bits.length = lastLength msgs ∧
      ∀ i, bitAt bits i = true ↔ Kept msgs i := by
  have hlen := h.bitfieldLength_eq hc
  have hpos := hc.1
  have hsized := h.records.sized
  cases hb : p.bitfield with
  | none =>
      unfold Sized at hsized
      rw [hb] at hsized
      have hzero : p.bitfieldLength = 0 := hsized
      omega
  | some bits =>
      refine ⟨bits, ?_, ?_, fun i => ?_⟩
      · rw [block, if_neg (by omega), hb]
      · rw [← h.records.length, length_of_sized hsized hb]
      · rw [← h.records.recorded_iff, recorded_eq_true_iff hsized, hb]
        simp

/-- A peer that does not count has no block. -/
theorem RecordOf.block_of_not_counts (h : RecordOf msgs p) (hc : ¬ Counts msgs) : block p = none := by
  cases hb : block p with
  | none => rfl
  | some bits =>
      obtain ⟨-, hlen, hpos, hmax⟩ := h.stored.of_block hb
      have hsame := h.records.length
      rw [hlen, (ofInt_natCast hmax).1, (ofInt_natCast hmax).2] at hsame
      exact absurd ⟨hsame ▸ hpos, hsame ▸ hmax⟩ hc

/-- The first peer that counts has the first block. -/
theorem head_blocks (h : List.Forall₂ RecordOf histories peers) :
    (blocks peers).head?.map List.length = (histories.find? (Counts ·)).map lastLength := by
  induction h with
  | nil => rfl
  | @cons msgs p histories peers hp _ ih =>
      by_cases hc : Counts msgs
      · obtain ⟨bits, hb, hlen, -⟩ := hp.block_of_counts hc
        rw [blocks, List.filterMap_cons_some hb, List.find?_cons_of_pos (by simpa using hc),
          List.head?_cons, Option.map_some, Option.map_some, hlen]
      · rw [blocks, List.filterMap_cons_none (hp.block_of_not_counts hc), ← blocks, ih,
          List.find?_cons_of_neg (by simpa using hc)]

/-- The pieces in the bitfields of one length are those kept. -/
theorem held_eq_keptOf (h : List.Forall₂ RecordOf histories peers) (hpos : 1 ≤ len)
    (hmax : (len : Int) ≤ intMax) : held peers len = keptOf histories len := by
  unfold held keptOf
  refine List.countP_congr fun i _ => ?_
  induction h with
  | nil => rfl
  | @cons msgs p histories peers hp _ ih =>
      rw [List.any_cons, List.any_cons, Bool.or_eq_true, Bool.or_eq_true, ih]
      refine or_congr_left ?_
      rw [Option.any_eq_true, decide_eq_true_eq]
      simp only [Bool.and_eq_true, decide_eq_true_eq]
      by_cases hc : Counts msgs
      · obtain ⟨bits, hb, hlen, hbits⟩ := hp.block_of_counts hc
        rw [hb, ← hbits, ← hlen]
        simp
      · rw [hp.block_of_not_counts hc]
        constructor
        · rintro ⟨b, hb, -⟩
          cases hb
        · rintro ⟨rfl, -⟩
          exact absurd ⟨hpos, hmax⟩ hc

/-- Such records are stored well. -/
theorem stored_of_records (h : List.Forall₂ RecordOf histories peers) : ∀ p ∈ peers, Stored p := by
  induction h with
  | nil => simp
  | cons hp _ ih => exact List.forall_mem_cons.mpr ⟨hp.stored, ih⟩

/-- **The function finds what was heard.** -/
theorem calculate_of_records (h : List.Forall₂ RecordOf histories peers) :
    calculateTotalAvailability peers = some (overview histories) := by
  rw [calculateTotalAvailability_spec (stored_of_records h), overview]
  have hhead := head_blocks h
  cases hfind : histories.find? (Counts ·) with
  | none =>
      rw [hfind, Option.map_none, Option.map_eq_none_iff] at hhead
      rw [hhead]
      rfl
  | some msgs =>
      rw [hfind, Option.map_some, Option.map_eq_some_iff] at hhead
      obtain ⟨bits, hbits, hlen⟩ := hhead
      have hc : Counts msgs := by simpa using List.find?_some hfind
      rw [hbits, Option.map_some, Option.getD_some, found, hlen, held_eq_keptOf h hc.1 hc.2]

/-! ## Talks -/

/-- A peer of the list, and what the calls to the system return when it is talked to. -/
structure Visit (σ : Type) where
  /-- Its address. -/
  ip : UInt32
  /-- Its port. -/
  port : UInt32
  /-- The network. -/
  net : Network σ
  /-- The memory that the turns of the loop are begun with. -/
  fresh : List (PeerMessage × (Nat → Nat → UInt8))

/-- The record of the peer after the talk. -/
def Visit.record (me : Identity) (v : Visit σ) : Option PeerT :=
  (peerCommunication v.net me (newPeer v.ip v.port .inUse) v.fresh).map Talk.peer

/-- The messages that are read; none from a peer that is given up. -/
def Visit.heard (me : Identity) (v : Visit σ) : List PeerMessage :=
  match (greet v.net me (newPeer v.ip v.port .inUse)).bind Talk.loop with
  | none => []
  | some (_, s) => ((receiveAll v.net.recv v.fresh s).map Prod.fst).getD []

/-- A peer that is given up has the record of no messages. -/
theorem recordOf_nil (ip port : UInt32) :
    RecordOf [] { newPeer ip port .inUse with status := .bad } := by
  obtain ⟨q, hrun, hheard⟩ := exists_heard ip port (by simp : ∀ msg ∈ [], Decoded msg)
  obtain rfl := Option.some.inj hrun
  exact ⟨⟨hheard.records.sized, hheard.records.length, hheard.records.recorded_iff⟩,
    hheard.stored.sized, hheard.stored.fits⟩

/-- Up to its loop the function returns, where each `recv` does. -/
theorem Answers.greet {net : Network σ} (ha : Answers net.recv) (me : Identity) (peer : PeerT) :
    ∃ talk, Client.greet net me peer = some talk := by
  by_cases hopen : net.Opens peer.ipAddress peer.port
  · obtain ⟨⟨n, buffer, s₁⟩, hbuffer⟩ := ha.recvInto (fun _ => 0) 68 net.start
    have hreceive : receivePeerHandshake net.recv net.start = some (n, readHandshake buffer, s₁) := by
      rw [receivePeerHandshake, hbuffer]
      rfl
    exact ⟨_, greet_of_opens hopen hreceive⟩
  · unfold Client.greet
    split_ifs with hsocket hconnect
    · exact ⟨_, rfl⟩
    · exact ⟨_, rfl⟩
    · exact absurd ⟨hsocket, hconnect⟩ hopen

/-- **A talk over any network**: the record is that of the messages read. -/
theorem Visit.record_of_answers (me : Identity) {v : Visit σ} (ha : Answers v.net.recv) :
    ∃ p, v.record me = some p ∧ RecordOf (v.heard me) p := by
  obtain ⟨⟨peer, sent, loop⟩, hgreet⟩ := ha.greet me (newPeer v.ip v.port .inUse)
  have hcases := greet_cases hgreet
  rw [Visit.record, Visit.heard, peerCommunication, hgreet, Option.bind_eq_bind, Option.bind_some,
    Option.bind_some]
  cases loop with
  | none =>
      obtain ⟨-, hpeer⟩ := hcases.resolve_right fun h => h.1 rfl
      obtain rfl : peer = _ := hpeer
      have hgiven := @hearAll_giveUp _ (newPeer v.ip v.port .inUse) v.net.recv v.fresh sent
      rw [giveUp] at hgiven
      exact ⟨_, by rw [hgiven]; rfl, recordOf_nil v.ip v.port⟩
  | some state =>
      obtain ⟨-, hpeer⟩ := hcases.resolve_left fun h => absurd h.1 (by simp)
      obtain rfl : peer = _ := hpeer
      obtain ⟨name, s⟩ := state
      obtain ⟨msgs, s', hmsgs, hdecoded⟩ := ha.receiveAll v.fresh s
      obtain ⟨q, hq, hheard⟩ := exists_heard v.ip v.port hdecoded
      rw [hearAll_eq hmsgs, hq]
      refine ⟨q, rfl, ?_⟩
      show RecordOf (((receiveAll v.net.recv v.fresh s).map Prod.fst).getD []) q
      rw [hmsgs]
      exact ⟨hheard.records, hheard.stored⟩

/-- The peer speaks the protocol and shares the torrent. -/
def Shares (me : Identity) (h : PeerHandshake) : Prop :=
  h.pstr = protocolStr ∧ h.infoHash = me.infoHash

/-- What a peer sends and what of it arrives: all, and each `recv` returns what it is asked for. -/
structure Visit.Hears (v : Visit σ) (h : PeerHandshake) (ms : List Message) : Prop where
  /-- The connection is made. -/
  opens : v.net.Opens v.ip v.port
  /-- The handshake is one that can be sent. -/
  sendable : h.Sendable
  /-- The messages fit. -/
  fits : ∀ m ∈ ms, m.Fits
  /-- There is a turn of the loop for each. -/
  turns : v.fresh.length = ms.length
  /-- They arrive. -/
  arrives : ∃ s', DeliversAll v.net.recv v.net.start (h.encode :: ms.flatMap Message.chunks) s'

/-- What a peer tells the client in a talk. -/
inductive Tells (me : Identity) : Visit σ → List PeerMessage → Prop
  /-- One that shares the torrent tells all its messages. -/
  | shares {v : Visit σ} {h : PeerHandshake} {ms : List Message} (hv : v.Hears h ms)
      (hgood : Shares me h) : Tells me v (ms.map Message.struct)
  /-- One that does not tells nothing. -/
  | stranger {v : Visit σ} {h : PeerHandshake} {ms : List Message} (hv : v.Hears h ms)
      (hbad : ¬ Shares me h) : Tells me v []
  /-- Over any network on which each `recv` returns, it tells what is read. -/
  | any {v : Visit σ} (ha : Answers v.net.recv) : Tells me v (v.heard me)

/-- **One talk**: the record is that of what the peer tells. -/
theorem Tells.record {v : Visit σ} (ht : Tells me v msgs) :
    ∃ p, v.record me = some p ∧ RecordOf msgs p := by
  cases ht with
  | @shares h ms hv hgood =>
      obtain ⟨s', hd⟩ := hv.arrives
      obtain ⟨q, hrun, hheard⟩ := talk_of_good me hv.opens hv.sendable hv.fits hv.turns hd hgood
      refine ⟨q, ?_, hheard.records, hheard.stored⟩
      rw [Visit.record, hrun]
      rfl
  | @stranger h ms hv hbad =>
      obtain ⟨s', hd⟩ := hv.arrives
      obtain ⟨s₁, hfirst, -⟩ := deliversAll_cons_iff.mp hd
      refine ⟨_, ?_, recordOf_nil v.ip v.port⟩
      rw [Visit.record, talk_of_bad me hv.opens hv.sendable hfirst hbad]
      rfl
  | any ha => exact Visit.record_of_answers me ha

/-- **What the client makes of the swarm.** The peers of the list are talked to, each over a network of
its own; then `calculate_total_availability` reads behind the end of no bitfield, and finds what the
peers have told. -/
theorem availability_of_visits {visits : List (Visit σ)}
    (ht : List.Forall₂ (Tells me) visits histories) :
    ∃ peers, List.Forall₂ (fun v p => Visit.record me v = some p) visits peers ∧
      calculateTotalAvailability peers = some (overview histories) := by
  obtain ⟨peers, hpeers, hrecords⟩ : ∃ peers,
      List.Forall₂ (fun v p => Visit.record me v = some p) visits peers ∧
        List.Forall₂ RecordOf histories peers := by
    induction ht with
    | nil => exact ⟨[], .nil, .nil⟩
    | cons ht _ ih =>
        obtain ⟨p, hp, hrecord⟩ := ht.record
        obtain ⟨peers, hpeers, hrecords⟩ := ih
        exact ⟨p :: peers, .cons hp hpeers, .cons hrecord hrecords⟩
  exact ⟨peers, hpeers, calculate_of_records hrecords⟩

/-- A peer that sends a bitfield, a `have` and a choke. -/
def goodVisit : Visit (List UInt8) where
  ip := 1
  port := 6881
  net := wire ((someGood.encode :: someMessages.flatMap Message.chunks).flatten ++ [])
  fresh := List.replicate 3 (⟨.msgUnknown, 9, 9, 9, [9], [9]⟩, fun _ _ => 9)

/-- It is heard. -/
theorem goodVisit_hears : goodVisit.Hears someGood someMessages :=
  ⟨wire_opens _ _ _, someGood_sendable, someMessages_fit, rfl, _, someMessages_delivered⟩

/-- A peer that does not answer. -/
def silentVisit : Visit (List UInt8) where
  ip := 2
  port := 6881
  net := { wire [] with recv := fun _ s => some (-1, [], s) }
  fresh := []

/-- The theorem at these two: pieces `0` and `3` of eight. -/
theorem availability_of_visits_example :
    overview [someMessages.map Message.struct, silentVisit.heard someIdentity] = (2, 8) ∧
      ∃ peers, List.Forall₂ (fun v p => Visit.record someIdentity v = some p)
          [goodVisit, silentVisit] peers ∧
        calculateTotalAvailability peers =
          some (overview [someMessages.map Message.struct, silentVisit.heard someIdentity]) := by
  have hsilent : Answers silentVisit.net.recv := fun n s => ⟨(-1, [], s), rfl, Nat.zero_le n⟩
  exact ⟨by decide, availability_of_visits
    (.cons (.shares goodVisit_hears ⟨rfl, rfl⟩) (.cons (.any hsilent) .nil))⟩

end Flood.Client
