import Flood.Peer.Bitfield
import Flood.Lib.Runs

/-!
# `calculate_total_availability`

* `calculateTotalAvailability` — the bitfields are combined, and the bits of the result counted.
  `none` where a bitfield is read behind its end.
* `Stored` — what the updates make of a peer: its bitfield has as many bytes as the peer says
  (`stored_of_handleAll`).
* `held peers len` — how many pieces are recorded in bitfields of `len` bytes.
* `calculateTotalAvailability_spec` — the pieces in bitfields of the length of the first.
* `availability_counts_union_iff` — with bitfields of one length these are the pieces some peer has,
  and when a `have` counts one piece more.
-/

namespace Flood.Client

open Flood.Lib Flood.Peer

/-! ## The function -/

/-- `master_bitfield` and `master_len`. -/
structure Master where
  /-- The bits so far; `none` is `NULL`. -/
  bitfield : Option (List UInt8)
  /-- Their bytes. -/
  len : UInt32
  deriving DecidableEq

/-- `calloc(1, p->bitfield_length)`, where there is no master bitfield yet. -/
def Master.init (m : Master) (p : PeerT) : Master :=
  match m.bitfield with
  | none => ⟨some (List.replicate p.bitfieldLength.toNat 0), UInt32.ofInt p.bitfieldLength⟩
  | some _ => m

/-- The loop `master_bitfield[i] |= p->bitfield[i]`, for `i` below `master_len`. -/
def Master.orInto (m : Master) (bits : List UInt8) : Option Master :=
  if m.len.toNat ≤ bits.length then
    some { m with bitfield := m.bitfield.map fun master => orBytes master bits }
  else none

/-- One turn of the loop over the peers. -/
def Master.merge (m : Master) (p : PeerT) : Option Master :=
  match p.bitfield with
  | none => some m
  | some bits =>
      if p.bitfieldLength < 1 then some m
      else if UInt32.ofInt p.bitfieldLength = (m.init p).len then (m.init p).orInto bits
      else some (m.init p)

/-- The inner loop that counts: `have += (byte >> j) & 0x01`. -/
def countByte (count : Int) (byte : UInt8) : Int :=
  (List.range 8).foldl (fun count j => wrap32 (count + ((byte.toNat >>> j) &&& 1 : Nat))) count

/-- `*p_have` and `*p_total`, for the peers of the list in order.
Source: `client.c`, `calculate_total_availability` -/
def calculateTotalAvailability (peers : List PeerT) : Option (Int × Int) := do
  let m ← peers.foldlM Master.merge ⟨none, 0⟩
  some ((m.bitfield.getD []).foldl countByte 0, intOfUInt (m.len * 8))

/-! ## Peers -/

/-- The bitfield has as many bytes as the peer says, which is an `int`. -/
structure Stored (p : PeerT) : Prop where
  /-- The length is that of the bitfield. -/
  sized : Sized p
  /-- The length is an `int`. -/
  fits : FitsInt p.bitfieldLength

/-- The bitfield, if it is not empty. -/
def block (p : PeerT) : Option (List UInt8) := if p.bitfieldLength < 1 then none else p.bitfield

/-- The bitfields that are not empty. -/
def blocks (peers : List PeerT) : List (List UInt8) := peers.filterMap block

/-- Bitfields of `len` bytes, combined. -/
def union (len : Nat) (bs : List (List UInt8)) : List UInt8 :=
  (bs.filter (·.length = len)).foldl orBytes (List.replicate len 0)

/-- How many pieces are recorded in bitfields of `len` bytes. -/
def held (peers : List PeerT) (len : Nat) : Nat :=
  (List.range (8 * len)).countP fun i =>
    peers.any fun p => (block p).any fun b => b.length = len && bitAt b i

/-- What is found for bitfields of `len` bytes. -/
def found (peers : List PeerT) (len : Nat) : Int × Int := (wrap32 (held peers len), wrap32 (8 * len))

variable {p : PeerT} {peers : List PeerT} {len : Nat} {bs : List (List UInt8)} {bits master : List UInt8}

/-- The length of a bitfield, as it is compared. -/
theorem length_of_sized (h : Sized p) (hb : p.bitfield = some bits) :
    (UInt32.ofInt p.bitfieldLength).toNat = bits.length := by
  unfold Sized at h
  rw [hb] at h
  exact h

/-- A bitfield that is not empty. -/
theorem Stored.of_block (h : Stored p) (hb : block p = some bits) :
    p.bitfield = some bits ∧ p.bitfieldLength = bits.length ∧ 1 ≤ bits.length ∧
      (bits.length : Int) ≤ intMax := by
  unfold block at hb
  split_ifs at hb with hpos
  have hfits := h.fits
  have hsized := length_of_sized h.sized hb
  unfold FitsInt at hfits
  obtain ⟨n, hn⟩ : ∃ n : Nat, p.bitfieldLength = n := ⟨p.bitfieldLength.toNat, by omega⟩
  rw [hn] at hfits hpos hsized ⊢
  obtain ⟨hof, hnat⟩ := ofInt_natCast hfits.2
  have hlen : n = bits.length := by rw [← hnat, ← hof, hsized]
  subst hlen
  exact ⟨hb, rfl, by omega, hfits.2⟩

/-- The master bitfield with these bits. -/
def Master.of (master : List UInt8) : Master := ⟨some master, UInt32.ofNat master.length⟩

/-- A peer without a bitfield does not count. -/
theorem Master.merge_of_none (hb : block p = none) (m : Master) : m.merge p = some m := by
  unfold block at hb
  unfold Master.merge
  split_ifs at hb with hempty
  · cases p.bitfield with
    | none => rfl
    | some bits => exact if_pos hempty
  · rw [hb]

/-- A turn with a bitfield that is not empty. -/
theorem Master.merge_of_block (h : Stored p) (hb : block p = some bits) (m : Master) :
    m.merge p = if UInt32.ofNat bits.length = (m.init p).len then (m.init p).orInto bits
      else some (m.init p) := by
  obtain ⟨hbits, hlen, hpos, hmax⟩ := h.of_block hb
  unfold Master.merge
  rw [hbits, hlen, (ofInt_natCast hmax).1]
  exact if_neg (by omega)

/-- The loop over the bytes of a bitfield of the same length. -/
theorem Master.orInto_of (hm : (master.length : Int) ≤ intMax) (hlen : bits.length = master.length) :
    (Master.of master).orInto bits = some (.of (orBytes master bits)) := by
  unfold Master.orInto Master.of
  rw [(ofInt_natCast hm).2, if_pos (le_of_eq hlen.symm), length_orBytes hlen.symm]
  rfl

/-- The first bitfield is the first master bitfield. -/
theorem Master.merge_first (h : Stored p) (hb : block p = some bits) :
    Master.merge ⟨none, 0⟩ p = some (.of (orBytes (List.replicate bits.length 0) bits)) := by
  obtain ⟨-, hlen, -, hmax⟩ := h.of_block hb
  have hsize : (List.replicate bits.length (0 : UInt8)).length = bits.length := List.length_replicate
  have hinit : Master.init ⟨none, 0⟩ p = .of (List.replicate bits.length 0) := by
    unfold Master.init Master.of
    rw [hlen, hsize, (ofInt_natCast hmax).1]
    rfl
  rw [Master.merge_of_block h hb, hinit, if_pos (by rw [Master.of, hsize]),
    Master.orInto_of (by rw [hsize]; exact hmax) hsize.symm]

/-- A further bitfield is combined if it has the same length, and else does not count. -/
theorem Master.merge_next (h : Stored p) (hb : block p = some bits) (hm : (master.length : Int) ≤ intMax) :
    (Master.of master).merge p =
      some (.of (if bits.length = master.length then orBytes master bits else master)) := by
  obtain ⟨-, -, -, hmax⟩ := h.of_block hb
  have hiff : UInt32.ofNat bits.length = (Master.of master).len ↔ bits.length = master.length := by
    rw [Master.of, ← UInt32.toNat_inj, (ofInt_natCast hmax).2, (ofInt_natCast hm).2]
  rw [Master.merge_of_block h hb]
  have hinit : Master.init (.of master) p = .of master := rfl
  rw [hinit]
  by_cases hlen : bits.length = master.length
  · rw [if_pos (hiff.mpr hlen), if_pos hlen, Master.orInto_of hm hlen]
  · rw [if_neg (fun h' => hlen (hiff.mp h')), if_neg hlen]

/-- **The loop over the peers** combines the bitfields of the length of the first. -/
theorem foldlM_merge (h : ∀ p ∈ peers, Stored p) (hm : (master.length : Int) ≤ intMax) :
    peers.foldlM Master.merge (.of master) =
      some (.of (((blocks peers).filter (·.length = master.length)).foldl orBytes master)) := by
  induction peers generalizing master with
  | nil => rfl
  | cons p peers ih =>
      have hrest : ∀ p ∈ peers, Stored p := fun p hp => h p (List.mem_cons_of_mem _ hp)
      rw [List.foldlM_cons, Option.bind_eq_bind, blocks]
      cases hb : block p with
      | none =>
          rw [Master.merge_of_none hb, Option.bind_some, List.filterMap_cons_none hb]
          exact ih hrest hm
      | some bits =>
          rw [Master.merge_next (h p List.mem_cons_self) hb hm, Option.bind_some,
            List.filterMap_cons_some hb, ← blocks]
          by_cases hlen : bits.length = master.length
          · have hsize : (orBytes master bits).length = master.length := length_orBytes hlen.symm
            rw [if_pos hlen, ih hrest (by rw [hsize]; exact hm), hsize,
              List.filter_cons_of_pos (by simpa using hlen), List.foldl_cons]
          · rw [if_neg hlen, ih hrest hm, List.filter_cons_of_neg (by simpa using hlen)]

/-! ## Counting -/

/-- `(byte >> j) & 0x01` is bit `j`. -/
theorem shiftRight_and_one (n j : Nat) : (n >>> j) &&& 1 = (n.testBit j).toNat := by
  rw [Nat.toNat_testBit, Nat.and_one_is_mod, Nat.shiftRight_eq_div_pow]

/-- The inner loop counts the bits of a byte. -/
theorem countByte_eq (n : Int) (byte : UInt8) : countByte (wrap32 n) byte = wrap32 (n + byteCount byte) := by
  unfold countByte byteCount
  generalize List.range 8 = js
  induction js generalizing n with
  | nil => simp
  | cons j js ih =>
      rw [List.foldl_cons, wrap32_wrap32_add, ih, shiftRight_and_one, List.countP_cons, Nat.cast_add,
        add_comm ((js.countP _ : Nat) : Int), ← add_assoc]
      cases byte.toNat.testBit j <;> rfl

/-- The loops count the bits of a block. -/
theorem foldl_countByte (n : Int) (bytes : List UInt8) :
    bytes.foldl countByte (wrap32 n) = wrap32 (n + bitCount bytes) := by
  induction bytes generalizing n with
  | nil => rw [List.foldl_nil, bitCount]; simp
  | cons byte bytes ih =>
      rw [List.foldl_cons, countByte_eq, ih, bitCount_cons, Nat.cast_add, add_assoc]

/-! ## The result -/

/-- Blocks of one length, combined. -/
theorem foldl_orBytes (hbs : ∀ b ∈ bs, b.length = master.length) :
    (bs.foldl orBytes master).length = master.length ∧
      ∀ i, bitAt (bs.foldl orBytes master) i = true ↔
        bitAt master i = true ∨ ∃ b ∈ bs, bitAt b i = true := by
  induction bs generalizing master with
  | nil => exact ⟨rfl, fun i => by simp⟩
  | cons b bs ih =>
      have hb : master.length = b.length := (hbs b List.mem_cons_self).symm
      have hsize : (orBytes master b).length = master.length := length_orBytes hb
      obtain ⟨hlen, hbits⟩ := ih (fun c hc => (hbs c (List.mem_cons_of_mem _ hc)).trans hsize.symm)
      refine ⟨hlen.trans hsize, fun i => ?_⟩
      rw [List.foldl_cons, hbits, bitAt_orBytes hb, Bool.or_eq_true, List.exists_mem_cons_iff, or_assoc]

/-- The bitfields of one length. -/
theorem length_of_mem_filter {b : List UInt8} (hb : b ∈ bs.filter (·.length = len)) :
    b ∈ bs ∧ b.length = len := by
  rw [List.mem_filter, decide_eq_true_eq] at hb
  exact hb

@[simp] theorem length_union : (union len bs).length = len := by
  have hsize : (List.replicate len (0 : UInt8)).length = len := List.length_replicate
  unfold union
  rw [(foldl_orBytes fun b hb => (length_of_mem_filter hb).2.trans hsize.symm).1, hsize]

/-- A bit of the combined bitfields is set in one of them. -/
theorem bitAt_union {i : Nat} :
    bitAt (union len bs) i = true ↔ ∃ b ∈ bs, b.length = len ∧ bitAt b i = true := by
  have hsize : (List.replicate len (0 : UInt8)).length = len := List.length_replicate
  have hclear : bitAt (List.replicate len 0) i = false := by
    unfold bitAt
    rw [List.getD_eq_getElem?_getD, List.getElem?_replicate]
    split_ifs <;> exact Nat.zero_testBit _
  unfold union
  rw [(foldl_orBytes fun b hb => (length_of_mem_filter hb).2.trans hsize.symm).2, hclear]
  simp [and_assoc]

/-- The first of the bitfields is combined first. -/
theorem union_cons_self (b : List UInt8) (bs : List (List UInt8)) : union b.length (b :: bs) =
    (bs.filter (·.length = b.length)).foldl orBytes (orBytes (List.replicate b.length 0) b) := by
  have hself : (b :: bs).filter (·.length = b.length) = b :: bs.filter (·.length = b.length) :=
    List.filter_cons_of_pos (decide_eq_true rfl)
  rw [union, hself, List.foldl_cons]

/-- The master bitfield after the loop. -/
def masterOf : List (List UInt8) → Master
  | [] => ⟨none, 0⟩
  | b :: bs => .of (union b.length (b :: bs))

/-- **The loop over the peers**, from the start. -/
theorem foldlM_merge_none (h : ∀ p ∈ peers, Stored p) :
    peers.foldlM Master.merge ⟨none, 0⟩ = some (masterOf (blocks peers)) := by
  induction peers with
  | nil => rfl
  | cons p peers ih =>
      have hrest : ∀ p ∈ peers, Stored p := fun p hp => h p (List.mem_cons_of_mem _ hp)
      rw [List.foldlM_cons, Option.bind_eq_bind, blocks]
      cases hb : block p with
      | none =>
          rw [Master.merge_of_none hb, Option.bind_some, List.filterMap_cons_none hb]
          exact ih hrest
      | some bits =>
          have hp := h p List.mem_cons_self
          obtain ⟨-, -, -, hmax⟩ := hp.of_block hb
          have hsize : (List.replicate bits.length (0 : UInt8)).length = bits.length :=
            List.length_replicate
          have hfirst : (orBytes (List.replicate bits.length 0) bits).length = bits.length := by
            rw [length_orBytes hsize, hsize]
          rw [Master.merge_first hp hb, Option.bind_some, List.filterMap_cons_some hb, ← blocks,
            foldlM_merge hrest (by rw [hfirst]; exact hmax), hfirst, masterOf, union_cons_self]

/-- `master_len * 8`, as an `int`. -/
theorem intOfUInt_mul_eight {n : Nat} (h : (n : Int) ≤ intMax) :
    intOfUInt (UInt32.ofNat n * 8) = wrap32 (8 * n) := by
  have hnat : (UInt32.ofNat n * 8).toNat = n * 8 % 4294967296 := by
    rw [UInt32.toNat_mul, (ofInt_natCast h).2]
    rfl
  rw [intOfUInt, hnat, wrap32_eq_wrap32_iff]
  omega

/-- The bits of the combined bitfields are the pieces recorded. -/
theorem bitCount_union (peers : List PeerT) (len : Nat) :
    bitCount (union len (blocks peers)) = held peers len := by
  unfold bitCount held
  rw [length_union]
  refine List.countP_congr fun i _ => ?_
  rw [bitAt_union, List.any_eq_true]
  simp only [blocks, List.mem_filterMap, Option.any_eq_true, Bool.and_eq_true, decide_eq_true_eq]
  constructor
  · rintro ⟨b, ⟨p, hp, hb⟩, hbit⟩
    exact ⟨p, hp, b, hb, hbit⟩
  · rintro ⟨p, hp, b, hb, hbit⟩
    exact ⟨b, ⟨p, hp, hb⟩, hbit⟩

/-- **What is found**: the pieces in bitfields of the length of the first. -/
theorem calculateTotalAvailability_spec (h : ∀ p ∈ peers, Stored p) :
    calculateTotalAvailability peers =
      some (((blocks peers).head?.map fun b => found peers b.length).getD (0, 0)) := by
  unfold calculateTotalAvailability
  rw [foldlM_merge_none h, Option.bind_eq_bind, Option.bind_some]
  cases hbs : blocks peers with
  | nil =>
      have hzero : intOfUInt (0 * 8) = 0 := by decide
      simp only [masterOf, Option.getD_none, List.foldl_nil, hzero, List.head?_nil, Option.map_none]
  | cons b bs =>
      have hmem : b ∈ blocks peers := by
        rw [hbs]
        exact List.mem_cons_self
      obtain ⟨p, hp, hb⟩ := List.mem_filterMap.mp hmem
      obtain ⟨-, -, -, hmax⟩ := (h p hp).of_block hb
      have hcount := foldl_countByte 0 (union b.length (b :: bs))
      have hzero : wrap32 0 = 0 := by decide
      rw [hzero, zero_add, ← hbs, bitCount_union, hbs] at hcount
      simp only [masterOf, Master.of, found, Option.getD_some, hcount, length_union,
        intOfUInt_mul_eight hmax, List.head?_cons, Option.map_some]

/-! ## Peers as they come about -/

/-- A message that was received leaves a peer that is stored well. -/
theorem Stored.handleMessage {msg : PeerMessage} {p' : PeerT} (h : Stored p) (hd : Decoded msg)
    (hrun : Peer.handleMessage p msg = some p') : Stored p' := by
  unfold Peer.handleMessage at hrun
  cases htype : msg.type
  all_goals rw [htype] at hrun
  case msgBitfield =>
    obtain ⟨p₁, hrun₁, hsized, hlen, -⟩ := peerUpdateBitfield_spec p (hd htype)
    obtain rfl := Option.some.inj (hrun.symm.trans hrun₁)
    exact ⟨hsized, hlen ▸ fitsInt_wrap32 _⟩
  case msgHave =>
    obtain ⟨p₁, hrun₁, hsized, hlen, -⟩ := peerUpdateBitfieldIndex_spec h.sized msg.word0 true
    obtain rfl := Option.some.inj (hrun.symm.trans hrun₁)
    exact ⟨hsized, hlen ▸ h.fits⟩
  all_goals
    obtain rfl := Option.some.inj hrun
    exact ⟨h.sized, h.fits⟩

/-- **Every peer is stored well**, after whatever messages. -/
theorem stored_of_handleAll {ip port : UInt32} {status : PeerStatus} {msgs : List PeerMessage}
    (hd : ∀ msg ∈ msgs, Decoded msg) (hrun : handleAll (newPeer ip port status) msgs = some p) :
    Stored p := by
  unfold handleAll at hrun
  induction msgs using List.reverseRecOn generalizing p with
  | nil =>
      obtain rfl := Option.some.inj hrun
      exact ⟨rfl, (by decide : FitsInt 0)⟩
  | append_singleton msgs msg ih =>
      obtain ⟨p₁, hrun₁, hstep⟩ := foldlM_concat_eq_some_iff.mp hrun
      have hmsgs : ∀ m ∈ msgs, Decoded m := fun m hm => hd m (List.mem_append_left _ hm)
      exact (ih hmsgs hrun₁).handleMessage (hd msg (by simp)) hstep

/-! ## Bitfields of one length -/

/-- The peer has a bitfield that is not empty. -/
def NonEmpty (p : PeerT) : Prop := ∃ bits, p.bitfield = some bits ∧ bits ≠ []

/-- The bitfield of the peer, if it is not empty, has `len` bytes. -/
def HasLength (len : Nat) (p : PeerT) : Prop := ∀ bits, p.bitfield = some bits → bits ≠ [] → bits.length = len

/-- How many of the pieces that fit in bitfields of `len` bytes some peer has. -/
def present (peers : List PeerT) (len : Nat) : Nat :=
  (List.range (8 * len)).countP fun i => peers.any (recorded · i)

/-- What is recorded is a bit of the bitfield. -/
theorem recorded_eq_true_iff (h : Sized p) {i : Nat} :
    recorded p i = true ↔ ∃ bits, p.bitfield = some bits ∧ bitAt bits i = true := by
  unfold recorded
  cases hb : p.bitfield with
  | none => simp
  | some bits =>
      rw [length_of_sized h hb, Bool.and_eq_true, decide_eq_true_eq]
      show _ ∧ bitAt bits i = true ↔ _
      constructor
      · rintro ⟨-, hbit⟩
        exact ⟨bits, rfl, hbit⟩
      · rintro ⟨bits', hbits, hbit⟩
        obtain rfl := Option.some.inj hbits
        refine ⟨?_, hbit⟩
        by_contra hle
        rw [bitAt_eq_false_of_le (not_lt.mp hle)] at hbit
        exact Bool.false_ne_true hbit

/-- A bitfield that is not empty and not too long is looked at. -/
theorem Stored.block_eq (h : Stored p) (hb : p.bitfield = some bits) (hne : bits ≠ [])
    (hlt : 8 * bits.length < 2 ^ 31) : block p = some bits := by
  have hfits := h.fits
  have hlen := length_of_sized h.sized hb
  have hpos := List.length_pos_iff.mpr hne
  have hmod : (UInt32.ofInt p.bitfieldLength).toNat = (p.bitfieldLength % 4294967296).toNat := by
    rw [UInt32.ofInt, UInt32.toNat_ofNat_of_lt']
    · norm_num
    · norm_num
      omega
  unfold FitsInt intMin intMax at hfits
  rw [hmod] at hlen
  unfold block
  rw [if_neg (by omega), hb]

/-- With bitfields of one length all that is recorded counts. -/
theorem held_eq_present (h : ∀ p ∈ peers, Stored p) (hlen : ∀ p ∈ peers, HasLength len p)
    (hlt : 8 * len < 2 ^ 31) : held peers len = present peers len := by
  unfold held present
  refine List.countP_congr fun i _ => ?_
  rw [List.any_eq_true, List.any_eq_true]
  refine exists_congr fun p => and_congr_right fun hp => ?_
  rw [recorded_eq_true_iff (h p hp).sized]
  simp only [Option.any_eq_true, Bool.and_eq_true, decide_eq_true_eq]
  constructor
  · rintro ⟨b, hb, -, hbit⟩
    exact ⟨b, ((h p hp).of_block hb).1, hbit⟩
  · rintro ⟨b, hb, hbit⟩
    have hne : b ≠ [] := by
      rintro rfl
      rw [bitAt_eq_false_of_le (Nat.zero_le _)] at hbit
      exact Bool.false_ne_true hbit
    have hsize := hlen p hp b hb hne
    exact ⟨b, (h p hp).block_eq hb hne (hsize ▸ hlt), hsize, hbit⟩

/-- **The pieces some peer has are counted**, of those the bitfields have room for. -/
theorem calculate_of_hasLength (h : ∀ p ∈ peers, Stored p) (hlen : ∀ p ∈ peers, HasLength len p)
    (hlt : 8 * len < 2 ^ 31) (hex : ∃ p ∈ peers, NonEmpty p) :
    calculateTotalAvailability peers = some ((present peers len : Int), 8 * (len : Int)) := by
  obtain ⟨p, hp, bits, hb, hne⟩ := hex
  have hblock := (h p hp).block_eq hb hne (hlen p hp bits hb hne ▸ hlt)
  have hle : present peers len ≤ 8 * len :=
    List.countP_le_length.trans (le_of_eq List.length_range)
  rw [calculateTotalAvailability_spec h]
  cases hbs : blocks peers with
  | nil =>
      have hmem : bits ∈ blocks peers := List.mem_filterMap.mpr ⟨p, hp, hblock⟩
      rw [hbs] at hmem
      exact absurd hmem List.not_mem_nil
  | cons b bs =>
      have hmem : b ∈ blocks peers := by rw [hbs]; exact List.mem_cons_self
      obtain ⟨q, hq, hqb⟩ := List.mem_filterMap.mp hmem
      obtain ⟨hfield, -, hpos, -⟩ := (h q hq).of_block hqb
      have hsize : b.length = len := hlen q hq b hfield (List.length_pos_iff.mp hpos)
      rw [List.head?_cons, Option.map_some, Option.getD_some, hsize, found, held_eq_present h hlen hlt,
        wrap32_natCast (by unfold intMax; omega),
        wrap32_of_fits ⟨by unfold intMin; omega, by unfold intMax; omega⟩]

/-! ## One piece more -/

/-- One number more is counted iff it was not counted. -/
theorem countP_range_insert {f g : Nat → Bool} {n k : Nat} (hk : k < n)
    (hg : ∀ i, g i = (decide (i = k) || f i)) :
    (List.range n).countP g = (List.range n).countP f + if f k then 0 else 1 := by
  induction n with
  | zero => omega
  | succ n ih =>
      rw [List.range_succ, List.countP_append, List.countP_append, List.countP_singleton,
        List.countP_singleton]
      rcases Nat.lt_or_ge k n with hlt | hge
      · have hother : g n = f n := by
          rw [hg, decide_eq_false (by omega), Bool.false_or]
        rw [ih hlt, hother]
        omega
      · obtain rfl : k = n := by omega
        have hbelow : (List.range k).countP g = (List.range k).countP f := by
          refine List.countP_congr fun i hi => ?_
          rw [List.mem_range] at hi
          rw [hg, decide_eq_false (by omega), Bool.false_or]
        have hself : g k = true := by rw [hg, decide_eq_true rfl, Bool.true_or]
        rw [hbelow, hself]
        cases f k <;> simp

/-- A bitfield that is not empty has a length. -/
theorem nonEmpty_iff (h : Sized p) : NonEmpty p ↔ 0 < (UInt32.ofInt p.bitfieldLength).toNat := by
  cases hb : p.bitfield with
  | none =>
      unfold Sized at h
      rw [hb] at h
      have hzero : p.bitfieldLength = 0 := h
      rw [hzero]
      refine iff_of_false ?_ (by decide)
      rintro ⟨bits, hbits, -⟩
      rw [hb] at hbits
      exact absurd hbits (by simp)
  | some bits =>
      rw [length_of_sized h hb, List.length_pos_iff]
      constructor
      · rintro ⟨bits', hbits, hne⟩
        rw [hb] at hbits
        obtain rfl := Option.some.inj hbits
        exact hne
      · exact fun hne => ⟨bits, hb, hne⟩

/-- The length of a bitfield, if it is not empty. -/
theorem hasLength_iff (h : Sized p) : HasLength len p ↔
    (0 < (UInt32.ofInt p.bitfieldLength).toNat → (UInt32.ofInt p.bitfieldLength).toNat = len) := by
  constructor
  · intro hlen hpos
    obtain ⟨bits, hb, hne⟩ := (nonEmpty_iff h).mpr hpos
    rw [length_of_sized h hb]
    exact hlen bits hb hne
  · intro hlen bits hb hne
    rw [← length_of_sized h hb]
    exact hlen ((nonEmpty_iff h).mp ⟨bits, hb, hne⟩)

/-- What a `have` does to a peer. -/
theorem exists_update (h : Stored p) (idx : UInt32) :
    ∃ p', peerUpdateBitfieldIndex p idx true = some p' ∧ Stored p' ∧
      (NonEmpty p' ↔ NonEmpty p) ∧ (HasLength len p' ↔ HasLength len p) ∧ ∀ i, recorded p' i =
        (decide (i = idx.toNat ∧ i / 8 < (UInt32.ofInt p.bitfieldLength).toNat) || recorded p i) := by
  obtain ⟨p', hrun, hsized, hlength, hrecorded⟩ := peerUpdateBitfieldIndex_spec h.sized idx true
  refine ⟨p', hrun, ⟨hsized, hlength ▸ h.fits⟩, ?_, ?_, fun i => ?_⟩
  · rw [nonEmpty_iff hsized, nonEmpty_iff h.sized, hlength]
  · rw [hasLength_iff hsized, hasLength_iff h.sized, hlength]
  · rw [hrecorded]
    split_ifs with hin
    · rw [decide_eq_true hin, Bool.true_or]
    · rw [decide_eq_false hin, Bool.false_or]

/-- A `have` for a listed peer counts one piece more, unless a peer had the piece. -/
def HaveCounts (pre : List PeerT) (p : PeerT) (post : List PeerT) (idx : UInt32) : Prop :=
  ∃ p' found total, peerUpdateBitfieldIndex p idx true = some p' ∧
    calculateTotalAvailability (pre ++ p :: post) = some (found, total) ∧
    calculateTotalAvailability (pre ++ p' :: post) =
      some (found + (if (pre ++ p :: post).any (recorded · idx.toNat) then 0 else 1), total)

/-- Without bitfields there is nothing to find. -/
theorem calculate_of_empty (h : ∀ p ∈ peers, Stored p) (hnone : ∀ p ∈ peers, ¬ NonEmpty p) :
    calculateTotalAvailability peers = some (0, 0) := by
  have hempty : blocks peers = [] := by
    refine List.filterMap_eq_nil_iff.mpr fun p hp => ?_
    cases hb : block p with
    | none => rfl
    | some bits =>
        obtain ⟨hfield, -, hpos, -⟩ := (h p hp).of_block hb
        exact absurd ⟨bits, hfield, List.length_pos_iff.mp hpos⟩ (hnone p hp)
  rw [calculateTotalAvailability_spec h, hempty]
  simp only [List.head?_nil, Option.map_none, Option.getD_none]

/-- What is found, as one number for both cases. -/
theorem exists_calculate (h : ∀ p ∈ peers, Stored p) (hlen : ∀ p ∈ peers, HasLength len p)
    (hlt : 8 * len < 2 ^ 31) :
    ∃ total, calculateTotalAvailability peers = some ((present peers len : Int), total) ∧
      ((∃ p ∈ peers, NonEmpty p) → total = 8 * (len : Int)) ∧
      (¬ (∃ p ∈ peers, NonEmpty p) → total = 0) := by
  by_cases hex : ∃ p ∈ peers, NonEmpty p
  · exact ⟨_, calculate_of_hasLength h hlen hlt hex, fun _ => rfl, fun hnone => absurd hex hnone⟩
  · have hnone : ∀ p ∈ peers, ¬ NonEmpty p := fun p hp hne => hex ⟨p, hp, hne⟩
    have hpresent : present peers len = 0 := by
      refine List.countP_eq_zero.mpr fun i _ hany => ?_
      obtain ⟨p, hp, hrec⟩ := List.any_eq_true.mp hany
      obtain ⟨bits, hb, hbit⟩ := (recorded_eq_true_iff (h p hp).sized).mp hrec
      refine hnone p hp ⟨bits, hb, ?_⟩
      rintro rfl
      rw [bitAt_eq_false_of_le (Nat.zero_le _)] at hbit
      exact Bool.false_ne_true hbit
    exact ⟨0, by rw [calculate_of_empty h hnone, hpresent]; rfl, fun h' => absurd h' hex, fun _ => rfl⟩

/-- The pieces some peer has, after a `have` for one of them. -/
theorem present_update {pre post : List PeerT} {p' : PeerT} {k : Nat} {room : Prop} [Decidable room]
    (hroom : room → k < 8 * len)
    (hrecorded : ∀ i, recorded p' i = (decide (i = k ∧ room) || recorded p i)) :
    present (pre ++ p' :: post) len = present (pre ++ p :: post) len +
      if room then (if (pre ++ p :: post).any (recorded · k) then 0 else 1) else 0 := by
  by_cases hin : room
  · rw [if_pos hin]
    refine countP_range_insert (hroom hin) fun i => ?_
    simp only [List.any_append, List.any_cons, hrecorded, hin, and_true]
    cases decide (i = k) <;> simp
  · have hsame : ∀ i, recorded p' i = recorded p i := fun i => by simp [hrecorded, hin]
    rw [if_neg hin, Nat.add_zero]
    refine List.countP_congr fun i _ => ?_
    simp only [List.any_append, List.any_cons, hsame]

/-- When a `have` counts one piece more. -/
theorem haveCounts_iff {pre post : List PeerT} (h : ∀ q ∈ pre ++ p :: post, Stored q)
    (hlen : ∀ q ∈ pre ++ p :: post, HasLength len q) (hlt : 8 * len < 2 ^ 31) (idx : UInt32) :
    HaveCounts pre p post idx ↔ idx.toNat / 8 < (UInt32.ofInt p.bitfieldLength).toNat ∨
      (pre ++ p :: post).any (recorded · idx.toNat) = true := by
  obtain ⟨total, hbefore, htotal, hzero⟩ := exists_calculate h hlen hlt
  simp only [List.forall_mem_append, List.forall_mem_cons] at h hlen
  obtain ⟨hpre, hp, hpost⟩ := h
  obtain ⟨hlpre, hlp, hlpost⟩ := hlen
  obtain ⟨p', hrun, hp', hnonEmpty, hlength, hrecorded⟩ := @exists_update p len hp idx
  have hstored : ∀ q ∈ pre ++ p' :: post, Stored q := by
    simp only [List.forall_mem_append, List.forall_mem_cons]
    exact ⟨hpre, hp', hpost⟩
  have hlengths : ∀ q ∈ pre ++ p' :: post, HasLength len q := by
    simp only [List.forall_mem_append, List.forall_mem_cons]
    exact ⟨hlpre, hlength.mpr hlp, hlpost⟩
  obtain ⟨total', hafter, htotal', hzero'⟩ := exists_calculate hstored hlengths hlt
  have hiff : (∃ q ∈ pre ++ p' :: post, NonEmpty q) ↔ ∃ q ∈ pre ++ p :: post, NonEmpty q := by
    simp only [List.mem_append, List.mem_cons, or_and_right, exists_or, exists_eq_left, hnonEmpty]
  have hsame : total' = total := by
    by_cases hex : ∃ q ∈ pre ++ p :: post, NonEmpty q
    · rw [htotal hex, htotal' (hiff.mpr hex)]
    · rw [hzero hex, hzero' fun h => hex (hiff.mp h)]
  have hroom : idx.toNat / 8 < (UInt32.ofInt p.bitfieldLength).toNat → idx.toNat < 8 * len := by
    intro hin
    rw [(hasLength_iff hp.sized).mp hlp (by omega)] at hin
    omega
  have hrecorded' : ∀ i, recorded p' i = (decide (i = idx.toNat ∧
      idx.toNat / 8 < (UInt32.ofInt p.bitfieldLength).toNat) || recorded p i) := by
    intro i
    rw [hrecorded]
    congr 1
    rw [decide_eq_decide]
    constructor
    all_goals
      rintro ⟨rfl, hin⟩
      exact ⟨rfl, hin⟩
  have hcount := @present_update p len pre post p' _ _ _ hroom hrecorded'
  rw [hcount, hsame] at hafter
  constructor
  · rintro ⟨p₁, found, total₁, hrun₁, hbefore₁, hafter₁⟩
    obtain rfl := Option.some.inj (hrun.symm.trans hrun₁)
    obtain ⟨rfl, rfl⟩ := Prod.mk.inj (Option.some.inj (hbefore.symm.trans hbefore₁))
    have hfound := (Prod.mk.inj (Option.some.inj (hafter.symm.trans hafter₁))).1
    -- a `have` without room leaves what is found, so some peer must have had the piece
    by_contra hneither
    obtain ⟨hout, hany⟩ := not_or.mp hneither
    rw [if_neg hout, if_neg hany] at hfound
    push_cast at hfound
    omega
  · intro hcond
    refine ⟨p', _, total, hrun, hbefore, ?_⟩
    rw [hafter]
    by_cases hany : (pre ++ p :: post).any (recorded · idx.toNat) = true
    · simp [hany]
    · have hin := hcond.resolve_right hany
      simp [hany, hin]

/-- **What `calculate_total_availability` finds.** With bitfields of `len` bytes, at least one of them
not empty, it finds the pieces some peer has, of `8 * len`; without bitfields it finds nothing. A
`have` for a listed peer sets its bit of the peer if the bitfield has it; and it counts one piece more,
unless a peer had the piece, iff the bitfield has the bit or a peer had the piece. -/
theorem availability_counts_union_iff (h : ∀ p ∈ peers, Stored p) :
    (∀ len, 8 * len < 2 ^ 31 → (∀ p ∈ peers, HasLength len p) →
      ((∃ p ∈ peers, NonEmpty p) →
        calculateTotalAvailability peers = some ((present peers len : Int), 8 * (len : Int))) ∧
      ∀ pre p post idx, peers = pre ++ p :: post →
        (∃ p', peerUpdateBitfieldIndex p idx true = some p' ∧ ∀ i, recorded p' i =
          (decide (i = idx.toNat ∧ i / 8 < (UInt32.ofInt p.bitfieldLength).toNat) ||
            recorded p i)) ∧
        (HaveCounts pre p post idx ↔ idx.toNat / 8 < (UInt32.ofInt p.bitfieldLength).toNat ∨
          peers.any (recorded · idx.toNat) = true)) ∧
    ((∀ p ∈ peers, ¬ NonEmpty p) → calculateTotalAvailability peers = some (0, 0)) := by
  refine ⟨fun len hlt hlen => ⟨calculate_of_hasLength h hlen hlt, ?_⟩, calculate_of_empty h⟩
  rintro pre p post idx rfl
  obtain ⟨p', hrun, -, -, -, hrecorded⟩ := @exists_update p len (h p (by simp)) idx
  exact ⟨⟨p', hrun, hrecorded⟩, haveCounts_iff h hlen hlt idx⟩

/-- A peer with this bitfield. -/
def peerWith (bits : List UInt8) : PeerT :=
  { newPeer 1 6881 .inUse with bitfieldLength := bits.length, bitfield := some bits }

/-- A peer with a bitfield is stored well. -/
theorem stored_peerWith (hlen : (bits.length : Int) ≤ intMax) : Stored (peerWith bits) := by
  have hfits : FitsInt bits.length := fitsInt_natCast hlen
  refine ⟨?_, hfits⟩
  show (UInt32.ofInt (bits.length : Int)).toNat = bits.length
  rw [(ofInt_natCast hlen).1, (ofInt_natCast hlen).2]

/-- The length of its bitfield. -/
theorem hasLength_peerWith (bits : List UInt8) : HasLength bits.length (peerWith bits) := by
  rintro _ ⟨⟩ _
  rfl

/-- A new peer has sent no bitfield. -/
theorem new_wellStored (ip port : UInt32) (status : PeerStatus) (len : Nat) :
    Stored (newPeer ip port status) ∧ HasLength len (newPeer ip port status) :=
  ⟨⟨rfl, (by decide : FitsInt 0)⟩, fun _ hb => absurd hb (by simp [newPeer])⟩

/-- Peers with a bitfield of one byte, and one that has sent none. -/
def somePeers : List PeerT := [peerWith [0x80], peerWith [0x41], newPeer 2 6881 .inUse]

/-- They are stored well. -/
theorem stored_somePeers : ∀ p ∈ somePeers, Stored p := by
  simp only [somePeers, List.forall_mem_cons]
  exact ⟨stored_peerWith (by decide), stored_peerWith (by decide), (new_wellStored 2 6881 .inUse 1).1,
    by simp⟩

/-- Their bitfields have one length. -/
theorem hasLength_somePeers : ∀ p ∈ somePeers, HasLength 1 p := by
  simp only [somePeers, List.forall_mem_cons]
  exact ⟨hasLength_peerWith [0x80], hasLength_peerWith [0x41], (new_wellStored 2 6881 .inUse 1).2,
    by simp⟩

/-- What is found of them; and a `have` of the first. -/
theorem availability_counts_union_iff_example :
    calculateTotalAvailability somePeers = some (3, 8) ∧
      HaveCounts [] (peerWith [0x80]) [peerWith [0x41], newPeer 2 6881 .inUse] 2 := by
  obtain ⟨hfound, hcounts⟩ :=
    (availability_counts_union_iff stored_somePeers).1 1 (by decide) hasLength_somePeers
  exact ⟨hfound ⟨_, List.mem_cons_self, [0x80], rfl, by decide⟩,
    (hcounts [] _ _ 2 rfl).2.mpr (.inl (by decide))⟩

/-- A `have` of the peer that has sent no bitfield is not counted. -/
theorem have_not_counted :
    (∀ p ∈ [peerWith [0x80], newPeer 2 6881 .inUse], Stored p ∧ HasLength 1 p) ∧
      ([peerWith [0x80], newPeer 2 6881 .inUse].any (recorded · 1)) = false ∧
      ¬ HaveCounts [peerWith [0x80]] (newPeer 2 6881 .inUse) [] 1 := by
  refine ⟨?_, rfl, ?_⟩
  · simp only [List.forall_mem_cons]
    exact ⟨⟨stored_peerWith (by decide), hasLength_peerWith [0x80]⟩, new_wellStored 2 6881 .inUse 1,
      by simp⟩
  · rintro ⟨p', found, total, hrun, hbefore, hafter⟩
    obtain rfl := Option.some.inj hrun
    have hsame := Option.some.inj (hbefore.symm.trans hafter)
    have hnone : ([peerWith [0x80], newPeer 2 6881 .inUse].any (recorded · 1)) = false := rfl
    have hfound := (Prod.mk.inj hsame).1
    rw [show (1 : UInt32).toNat = 1 from rfl, List.singleton_append, hnone] at hfound
    simp at hfound

end Flood.Client
