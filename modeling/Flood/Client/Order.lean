import Flood.Client.Availability
import Mathlib.Data.Int.ModEq

/-!
# Availability in every order

* `OrderFree peers` — `calculate_total_availability` gives the same result in every order of the peers.
* `orderFree_iff` — it does iff it gives the same for each length of bitfield that occurs: the first
  bitfield fixes the length, and those of other lengths are passed over.
-/

namespace Flood.Client

open Flood.Lib Flood.Peer

variable {peers : List PeerT}

/-- The result is the same in every order of the peers. -/
def OrderFree (peers : List PeerT) : Prop :=
  ∀ peers', peers'.Perm peers → calculateTotalAvailability peers' = calculateTotalAvailability peers

/-- What is recorded does not depend on the order. -/
theorem found_perm {peers' : List PeerT} (hperm : peers'.Perm peers) (len : Nat) :
    found peers' len = found peers len := by
  unfold found held
  have hcount : ∀ i, (peers'.any fun p => (block p).any fun b => b.length = len && bitAt b i) =
      peers.any fun p => (block p).any fun b => b.length = len && bitAt b i := fun i =>
    hperm.any_eq
  simp only [hcount]

/-- Two lengths give the same result. -/
theorem found_eq_found_iff {m n : Nat} : found peers m = found peers n ↔
    8 * m ≡ 8 * n [MOD 2 ^ 32] ∧ held peers m ≡ held peers n [MOD 2 ^ 32] := by
  have hpow : (2 : Nat) ^ 32 = 4294967296 := by norm_num
  unfold found
  rw [Prod.mk.injEq, wrap32_eq_wrap32_iff, wrap32_eq_wrap32_iff, Nat.ModEq, Nat.ModEq, hpow]
  constructor
  · rintro ⟨hheld, hlen⟩
    omega
  · rintro ⟨hlen, hheld⟩
    omega

/-- A peer with a bitfield that comes first decides. -/
theorem calculate_of_first {peers' : List PeerT} (h : ∀ p ∈ peers, Stored p) (hperm : peers'.Perm peers)
    {b : List UInt8} (hb : (blocks peers').head? = some b) :
    calculateTotalAvailability peers' = some (found peers b.length) := by
  rw [calculateTotalAvailability_spec fun p hp => h p (hperm.mem_iff.mp hp), hb, Option.map_some,
    Option.getD_some, found_perm hperm]

/-- **When the order does not matter.** The result is the same in every order iff any two lengths of
bitfields that are not empty agree modulo `2 ^ 29`, and as many pieces are recorded in bitfields of
the one length as in those of the other. -/
theorem orderFree_iff (h : ∀ p ∈ peers, Stored p) :
    OrderFree peers ↔ ∀ p ∈ peers, ∀ q ∈ peers, ∀ a b, block p = some a → block q = some b →
      8 * a.length ≡ 8 * b.length [MOD 2 ^ 32] ∧
        held peers a.length ≡ held peers b.length [MOD 2 ^ 32] := by
  simp only [← found_eq_found_iff]
  constructor
  · intro hfree p hp q hq a b ha hb
    have hfirst : ∀ r ∈ peers, ∀ c, block r = some c →
        calculateTotalAvailability peers = some (found peers c.length) := by
      intro r hr c hc
      have hperm : (r :: peers.erase r).Perm peers := (List.perm_cons_erase hr).symm
      rw [← hfree _ hperm]
      apply calculate_of_first h hperm
      rw [blocks, List.filterMap_cons_some hc, List.head?_cons]
    exact Option.some.inj ((hfirst p hp a ha).symm.trans (hfirst q hq b hb))
  · intro hsame peers' hperm
    have hblocks : (blocks peers').Perm (blocks peers) := hperm.filterMap _
    have hstored : ∀ p ∈ peers', Stored p := fun p hp => h p (hperm.mem_iff.mp hp)
    cases hbs : blocks peers with
    | nil =>
        rw [hbs] at hblocks
        rw [calculateTotalAvailability_spec h, calculateTotalAvailability_spec hstored, hbs,
          hblocks.eq_nil, List.head?_nil, Option.map_none, Option.map_none]
    | cons b bs =>
        cases hcs : blocks peers' with
        | nil =>
            rw [hcs, hbs] at hblocks
            exact absurd hblocks.symm.eq_nil (List.cons_ne_nil _ _)
        | cons c cs =>
            have hbhead : (blocks peers).head? = some b := by rw [hbs]; rfl
            have hchead : (blocks peers').head? = some c := by rw [hcs]; rfl
            obtain ⟨p, hp, hb⟩ := List.mem_filterMap.mp (List.mem_of_mem_head? hbhead)
            obtain ⟨q, hq, hc⟩ := List.mem_filterMap.mp (List.mem_of_mem_head? hchead)
            rw [calculate_of_first h hperm hchead, calculate_of_first h (.refl peers) hbhead,
              hsame q (hperm.mem_iff.mp hq) p hp c b hc hb]

/-- Two peers with bitfields of one length, and one without. -/
theorem orderFree_iff_example :
    OrderFree [peerWith [0x80], newPeer 2 6881 .new, peerWith [0x40]] ↔
      ∀ p ∈ [peerWith [0x80], newPeer 2 6881 .new, peerWith [0x40]],
      ∀ q ∈ [peerWith [0x80], newPeer 2 6881 .new, peerWith [0x40]],
        ∀ a b, block p = some a → block q = some b →
          8 * a.length ≡ 8 * b.length [MOD 2 ^ 32] ∧
            held [peerWith [0x80], newPeer 2 6881 .new, peerWith [0x40]] a.length ≡
              held [peerWith [0x80], newPeer 2 6881 .new, peerWith [0x40]] b.length [MOD 2 ^ 32] := by
  apply orderFree_iff
  simp only [List.forall_mem_cons]
  refine ⟨⟨rfl, ?_⟩, ⟨rfl, ?_⟩, ⟨rfl, ?_⟩, fun p hp => absurd hp List.not_mem_nil⟩
  all_goals decide

/-- A bitfield of two bytes is passed over behind one of one byte, and passes that over before it. -/
theorem order_matters :
    ¬ ∀ peers : List PeerT, (∀ p ∈ peers, Stored p) → OrderFree peers := by
  intro hall
  have hfree := hall [peerWith [0xff], peerWith [0, 0]] (by
    simp only [List.forall_mem_cons]
    refine ⟨⟨rfl, ?_⟩, ⟨rfl, ?_⟩, fun p hp => absurd hp List.not_mem_nil⟩
    all_goals decide)
  have hsame := hfree [peerWith [0, 0], peerWith [0xff]] (.swap _ _ _)
  exact absurd hsame (by decide +kernel)

end Flood.Client
