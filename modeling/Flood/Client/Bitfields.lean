import Flood.Client.Interleaved

/-!
# The bitfields, which no mutex guards

`peer_update_bitfield` frees a bitfield, allocates another, fills it and writes its length, while other
threads combine the bitfields of all peers.

* `Clash` — a thread uses a bitfield that another thread has begun to replace.
* `Settled` — what is known of the bitfield of a peer that no thread is replacing; `Thread.Knows` what a
  thread knows where it is.
* `BitsHold` — both; `BitsHold.step` — a step between states that do not clash keeps them.
* `Undisturbed` — a state of a run without clashes; `Undisturbed.bitsHold`.
-/

namespace Flood.Client.Swarm

open Flood.Lib Flood.LinkedList Flood.Peer
open Flood.Tracker (DiscoveredPeer)

variable {t u : Nat} {s s' : Shared} {l l' k : Thread} {i : Input} {mv : Move Shared Thread}
  {p : UInt64} {q q' : PeerT} {job job' : Job} {seen : List Elem} {data : Elem} {master : Master}
  {threads : List Thread} {m m' : Monitor Shared Thread} {acts : List (Nat × Input)}

/-! ## Clashes -/

/-- The peer the bitfield of which the thread has begun to replace. -/
def Thread.replaced : Thread → Option UInt64
  | .update _ _ .free => none
  | .update p _ _ => some p
  | _ => none

/-- The peer the bitfield of which the thread uses. -/
def Thread.used : Thread → Option UInt64
  | .merge _ _ data _ => some (leWord64 data)
  | .update p _ _ => some p
  | .mark p _ => some p
  | _ => none

/-- A thread uses a bitfield that another thread has begun to replace. -/
def Clash (m : Monitor Shared Thread) : Prop :=
  ∃ (t u : Nat) (l k : Thread) (p : UInt64), t ≠ u ∧ m.threads[t]? = some l ∧ m.threads[u]? = some k ∧
    l.replaced = some p ∧ k.used = some p

/-- Which states clash, thread by thread. -/
theorem clash_iff : Clash m ↔ ∃ t ∈ List.range m.threads.length, ∃ u ∈ List.range m.threads.length,
    t ≠ u ∧ (m.threads[t]?.bind Thread.replaced).isSome = true ∧
      m.threads[t]?.bind Thread.replaced = m.threads[u]?.bind Thread.used := by
  constructor
  · rintro ⟨t, u, l, k, p, hne, hl, hk, hrep, hused⟩
    refine ⟨t, List.mem_range.mpr (List.getElem?_eq_some_iff.mp hl).1, u,
      List.mem_range.mpr (List.getElem?_eq_some_iff.mp hk).1, hne, ?_, ?_⟩
    · rw [hl, Option.bind_some, hrep]
      rfl
    · rw [hl, hk, Option.bind_some, Option.bind_some, hrep, hused]
  · rintro ⟨t, _, u, _, hne, hsome, heq⟩
    obtain ⟨p, hp⟩ := Option.isSome_iff_exists.mp hsome
    rw [hp] at heq
    obtain ⟨l, hl, hrep⟩ := Option.bind_eq_some_iff.mp hp
    obtain ⟨k, hk, hused⟩ := Option.bind_eq_some_iff.mp heq.symm
    exact ⟨t, u, l, k, p, hne, hl, hk, hrep, hused⟩

instance (m : Monitor Shared Thread) : Decidable (Clash m) := decidable_of_iff' _ clash_iff

/-! ## What is known of the bitfields -/

/-- The bitfield of the peer is not freed, and has the length the peer says. -/
structure Settled (s : Shared) (p : UInt64) : Prop where
  /-- It is not freed. -/
  live : p ∉ s.freed
  /-- It has its length. -/
  stored : ∀ q, s.peer p = some q → Stored q

/-- The master bitfield has its length. -/
def Master.Whole (master : Master) : Prop := (master.bitfield.getD []).length = master.len.toNat

/-- What a loop knows of the master bitfield. -/
def Job.Knows : Job → Prop
  | .count master => Master.Whole master
  | _ => True

/-- What a thread knows while it combines a bitfield, of which `len` is the length. -/
def MergeStage.Knows (master : Master) (len : Int) : MergeStage → Prop
  | .calloc => True
  | .measure => master.bitfield.map List.length = some len.toNat
  | .compare => Master.Whole master
  | .combine _ => Master.Whole master ∧ UInt32.ofInt len = master.len

/-- What a thread knows while it replaces a bitfield by one of `len` bytes. -/
def UpdateStage.Knows (s : Shared) (p : UInt64) (len : Nat) : UpdateStage → Prop
  | .free => True
  | .malloc => True
  | _ => p ∉ s.freed ∧ ∃ q, s.peer p = some q ∧ q.bitfield.map List.length = some len

/-- What a thread knows of the bitfields. -/
def Thread.Knows (s : Shared) : Thread → Prop
  | .scan job _ _ => job.Knows
  | .merge master stage data _ =>
      ∃ q, s.peer (leWord64 data) = some q ∧ 1 ≤ q.bitfieldLength ∧ stage.Knows master q.bitfieldLength
  | .tally master => Master.Whole master
  | .update p msg stage =>
      msg.bitfield.length = msg.word0.toNat ∧ stage.Knows s p msg.word0.toNat
  | .mark p idx => ∃ q, s.peer p = some q ∧ idx / 8 < UInt32.ofInt q.bitfieldLength
  | _ => True

/-- What holds of the bitfields. -/
structure BitsHold (m : Monitor Shared Thread) : Prop where
  /-- A bitfield that no thread is replacing is settled. -/
  settled : ∀ p, (∀ k ∈ m.threads, k.replaced ≠ some p) → Settled m.shared p
  /-- What the threads know. -/
  knows : ∀ (t : Nat) (l : Thread), m.threads[t]? = some l → l.Knows m.shared

/-! ## Moves that leave a bitfield its length -/

/-- The bitfield of the peer is as long as it was. -/
structure Alike (s s' : Shared) (p : UInt64) : Prop where
  /-- It is freed if it was. -/
  freed : p ∈ s'.freed ↔ p ∈ s.freed
  /-- It has its length. -/
  peer : ∀ q, s.peer p = some q → ∃ q', s'.peer p = some q' ∧
    q'.bitfieldLength = q.bitfieldLength ∧
      q'.bitfield.map List.length = q.bitfield.map List.length
  /-- A peer that was not there has none. -/
  fresh : s.peer p = none → ∀ q', s'.peer p = some q' → Stored q'

/-- Nothing has changed. -/
theorem alike_of_eq (hfreed : p ∈ s'.freed ↔ p ∈ s.freed) (hpeer : s'.peer p = s.peer p) :
    Alike s s' p where
  freed := hfreed
  peer q hq := ⟨q, hpeer.trans hq, rfl, rfl⟩
  fresh hnone q' hq' := absurd (hnone.symm.trans (hpeer.symm.trans hq')) (by simp)

/-- A write to a peer that leaves its bitfield. -/
theorem alike_setPeer {a : UInt64} (hq : s.peer a = some q)
    (hlen : q'.bitfieldLength = q.bitfieldLength)
    (hbits : q'.bitfield.map List.length = q.bitfield.map List.length) (p : UInt64) :
    Alike s (s.setPeer a q') p := by
  by_cases hpa : p = a
  · subst hpa
    have hset : (s.setPeer p q').peer p = some q' := by rw [peer_setPeer hq, if_pos rfl]
    refine ⟨Iff.rfl, fun r hr => ⟨q', hset, ?_⟩, fun hnone => ?_⟩
    · obtain rfl := Option.some.inj (hq.symm.trans hr)
      exact ⟨hlen, hbits⟩
    · exact absurd (hnone.symm.trans hq) (by simp)
  · exact alike_of_eq Iff.rfl (by rw [peer_setPeer hq, if_neg hpa])

/-- A message that is no bitfield and announces no piece leaves the bitfield. -/
theorem handleMessage_bitfield {msg : PeerMessage} (hbitfield : msg.type ≠ .msgBitfield)
    (hhave : msg.type ≠ .msgHave) (h : handleMessage q msg = some q') :
    q'.bitfieldLength = q.bitfieldLength ∧ q'.bitfield = q.bitfield := by
  unfold handleMessage at h
  split at h
  · exact absurd ‹_› hbitfield
  · exact absurd ‹_› hhave
  all_goals
    obtain rfl := Option.some.inj h
    exact ⟨rfl, rfl⟩

/-- Setting a bit leaves the length. -/
theorem markBit_length {idx : UInt32} (h : markBit idx q = some q') :
    q'.bitfieldLength = q.bitfieldLength ∧
      q'.bitfield.map List.length = q.bitfield.map List.length := by
  simp only [markBit, Option.bind_eq_bind, Option.bind_eq_some_iff, Option.some.injEq] at h
  obtain ⟨bits, hbits, byte, -, rfl⟩ := h
  exact ⟨rfl, by simp [hbits]⟩

/-- A peer that is allocated has no bitfield. -/
theorem stored_newPeer (ip port : UInt32) (status : PeerStatus) : Stored (newPeer ip port status) :=
  ⟨rfl, show FitsInt 0 by decide⟩

/-- **Only a thread that replaces a bitfield** changes whether it is there, and its length. -/
theorem Moves.alike (h : Moves t s l i mv) (hl : ∀ msg stage, l ≠ .update p msg stage) :
    Alike s mv.shared p := by
  have hother : ∀ {a : UInt64} {msg : PeerMessage} {stage : UpdateStage}, l = .update a msg stage →
      p ≠ a := by
    rintro a msg stage rfl rfl
    exact hl _ _ rfl
  cases h with
  | claim hq => refine alike_setPeer hq ?_ ?_ p <;> rfl
  | refuse hq => refine alike_setPeer hq ?_ ?_ p <;> rfl
  | hear hbitfield hhave hq hmsg =>
      obtain ⟨hlen, hbits⟩ := handleMessage_bitfield hbitfield hhave hmsg
      exact alike_setPeer hq hlen (congrArg _ hbits) p
  | mark idx _ hq hmark =>
      obtain ⟨hlen, hbits⟩ := markBit_length hmark
      exact alike_setPeer hq hlen hbits p
  | free msg => exact alike_of_eq (by simp [Move.shared, Shared.free, hother rfl]) rfl
  | malloc msg _ hq =>
      refine alike_of_eq (by simp [Move.shared, Shared.renew, Shared.setPeer, hother rfl]) ?_
      exact (peer_setPeer hq _ p).trans (if_neg (hother rfl))
  | copy msg _ hq => exact alike_of_eq Iff.rfl ((peer_setPeer hq _ p).trans (if_neg (hother rfl)))
  | length msg hq => exact alike_of_eq Iff.rfl ((peer_setPeer hq _ p).trans (if_neg (hother rfl)))
  | @alloc report rest block hfresh =>
      have hpeer := peer_alloc hfresh (newPeer report.ip report.port block.status) p
      refine ⟨Iff.rfl, fun q hq => ⟨q, ?_, rfl, rfl⟩, fun hnone q' hq' => ?_⟩
      · refine hpeer.trans ((if_neg ?_).trans hq)
        rintro rfl
        exact absurd (hfresh.symm.trans hq) (by simp)
      · have hq'' := hpeer.symm.trans hq'
        split_ifs at hq'' with hp
        · obtain rfl := Option.some.inj hq''
          exact stored_newPeer ..
        · exact absurd (hnone.symm.trans hq'') (by simp)
  | _ => exact alike_of_eq Iff.rfl rfl

/-- A bitfield of the same length is stored as well. -/
theorem stored_of_length (h : Stored q) (hlen : q'.bitfieldLength = q.bitfieldLength)
    (hbits : q'.bitfield.map List.length = q.bitfield.map List.length) : Stored q' := by
  refine ⟨?_, hlen ▸ h.fits⟩
  have hsized := h.sized
  unfold Sized at hsized ⊢
  cases hq : q.bitfield with
  | none =>
      rw [hq] at hsized hbits
      rw [Option.map_eq_none_iff.mp hbits]
      exact hlen.trans hsized
  | some bits =>
      rw [hq] at hsized hbits
      obtain ⟨bits', hbits', hsame⟩ := Option.map_eq_some_iff.mp hbits
      rw [hbits', hlen]
      exact hsized.trans hsame.symm

/-- It stays settled. -/
theorem Alike.settled (h : Alike s s' p) (hs : Settled s p) : Settled s' p := by
  refine ⟨fun hp => hs.live (h.freed.mp hp), fun q' hq' => ?_⟩
  cases hq : s.peer p with
  | none => exact h.fresh hq q' hq'
  | some q =>
      obtain ⟨r, hr, hlen, hbits⟩ := h.peer q hq
      obtain rfl := Option.some.inj (hr.symm.trans hq')
      exact stored_of_length (hs.stored q hq) hlen hbits

/-- What a thread knows of the bitfield it uses it still knows. -/
theorem Thread.Knows.of_alike (hk : k.Knows s) (h : ∀ p, k.used = some p → Alike s s' p) :
    k.Knows s' := by
  cases k with
  | merge master stage data seen =>
      obtain ⟨q, hq, hpos, hstage⟩ := hk
      obtain ⟨q', hq', hlen, -⟩ := (h _ rfl).peer q hq
      exact ⟨q', hq', hlen ▸ hpos, hlen ▸ hstage⟩
  | update p msg stage =>
      obtain ⟨hmsg, hstage⟩ := hk
      have hlike := h p rfl
      refine ⟨hmsg, ?_⟩
      cases stage with
      | free => trivial
      | malloc => trivial
      | _ =>
          obtain ⟨hlive, q, hq, hbits⟩ := hstage
          obtain ⟨q', hq', -, hsame⟩ := hlike.peer q hq
          exact ⟨fun hp => hlive (hlike.freed.mp hp), q', hq', hsame.trans hbits⟩
  | mark p idx =>
      obtain ⟨q, hq, hidx⟩ := hk
      obtain ⟨q', hq', hlen, -⟩ := (h p rfl).peer q hq
      exact ⟨q', hq', hlen ▸ hidx⟩
  | _ => exact hk

/-! ## One step -/

/-- A bitfield of the length that is written is stored. -/
theorem stored_of_replaced {bits : List UInt8} {len : UInt32} (hbits : q.bitfield = some bits)
    (hlen : bits.length = len.toNat) : Stored { q with bitfieldLength := intOfUInt len } := by
  have hfits : FitsInt (intOfUInt len) := fitsInt_wrap32 _
  have hof := ofInt_intOfUInt len
  obtain ⟨n, hn⟩ : ∃ n, intOfUInt len = n := ⟨_, rfl⟩
  rw [hn] at hfits hof ⊢
  refine ⟨?_, hfits⟩
  unfold Sized
  rw [hbits]
  show (UInt32.ofInt n).toNat = bits.length
  rw [hof, hlen]

/-- A bitfield that is replaced is settled in the end. -/
theorem Moves.settled (h : Moves t s l i mv) (hk : l.Knows s) (hset : l.replaced ≠ some p → Settled s p)
    (hnot : mv.thread.replaced ≠ some p) : Settled mv.shared p := by
  by_cases hl : ∃ msg stage, l = .update p msg stage
  · obtain ⟨msg, stage, rfl⟩ := hl
    cases h with
    | @length _ q _ hq =>
        obtain ⟨-, hlive, r, hr, hbits⟩ := hk
        obtain rfl := Option.some.inj (hq.symm.trans hr)
        obtain ⟨bits, hsome, hlen⟩ := Option.map_eq_some_iff.mp hbits
        refine ⟨hlive, fun q' hq' => ?_⟩
        rw [← Option.some.inj (((peer_setPeer hq _ p).trans (if_pos rfl)).symm.trans hq')]
        exact stored_of_replaced hsome hlen
    | _ => exact absurd rfl hnot
  · have hlike := h.alike (p := p) fun msg stage heq => hl ⟨msg, stage, heq⟩
    refine hlike.settled (hset fun hrep => ?_)
    unfold Thread.replaced at hrep
    split at hrep
    · exact absurd hrep (by simp)
    · exact hl ⟨_, _, congrArg (fun a => Thread.update a _ _) (Option.some.inj hrep)⟩
    · exact absurd hrep (by simp)

/-- A length that is not negative, as `uint32_t`. -/
theorem toNat_ofInt {n : Int} (hpos : 0 ≤ n) (hfits : FitsInt n) : (UInt32.ofInt n).toNat = n.toNat := by
  obtain ⟨len, rfl⟩ := Int.eq_ofNat_of_zero_le hpos
  obtain ⟨hof, hnat⟩ := ofInt_natCast hfits.2
  rw [hof, hnat, Int.toNat_natCast]

/-- What a loop knows of the master bitfield it knows when it goes on. -/
theorem Job.Knows.pass (hk : job.Knows) (h : job.look s data = some (.pass job')) : job'.Knows := by
  obtain ⟨rfl, rfl, _⟩ | ⟨master, rfl, rfl⟩ | ⟨n, n', rfl, rfl⟩ | ⟨report, rest, rfl, rfl, _⟩ :=
    look_pass_cases h
  · trivial
  · exact hk
  · trivial
  · trivial

/-- What a thread knows behind a loop. -/
theorem Job.Knows.after (h : job.Knows) (hit : Option UInt64) : (job.after hit).Knows s := by
  cases job with
  | select =>
      cases hit with
      | none => exact (rfl : Master.Whole ⟨none, 0⟩)
      | some p => trivial
  | count master => cases hit <;> exact h
  | unchecked n => cases hit <;> trivial
  | find report rest => cases hit <;> trivial

/-- A byte is combined within the master bitfield. -/
theorem Master.Whole.orByte {master' : Master} {n : Nat} {byte : UInt8} (h : Master.Whole master)
    (hor : orByte master n byte = some master') : Master.Whole master' ∧ master'.len = master.len := by
  simp only [Swarm.orByte, Option.bind_eq_bind, Option.bind_eq_some_iff, Option.some.injEq] at hor
  obtain ⟨bits, hbits, old, -, rfl⟩ := hor
  rw [Master.Whole, hbits] at h
  refine ⟨?_, rfl⟩
  rw [Master.Whole, ← h]
  simp

/-- The bitfield that was copied is as long as the message. -/
theorem copyBitfield_length {msg : PeerMessage} (hmsg : msg.bitfield.length = msg.word0.toNat)
    (hbits : q.bitfield.map List.length = some msg.word0.toNat) (h : copyBitfield msg q = some q') :
    q'.bitfield.map List.length = some msg.word0.toNat := by
  obtain ⟨bits, hsome, hlen⟩ := Option.map_eq_some_iff.mp hbits
  simp only [copyBitfield, hsome, hmsg, hlen, le_refl, and_self, if_true, Option.bind_eq_bind,
    Option.bind_some, Option.some.injEq] at h
  subst h
  simp [hmsg, hlen]

/-- **What a thread knows after its move.** A bitfield it uses and is not replacing is settled. -/
theorem Moves.knows (h : Moves t s l i mv) (hk : l.Knows s)
    (hset : ∀ p, l.used = some p → l.replaced ≠ some p → Settled s p)
    (hmsg : ∀ msg, i = .message msg → Decoded msg) : mv.thread.Knows mv.shared := by
  cases h with
  | lock => exact hk
  | rewind => exact hk
  | more => exact hk
  | ended => exact hk
  | fetch => exact hk
  | begin => trivial
  | pass job seen hlook => exact Job.Knows.pass hk hlook
  | hit => exact hk
  | @merge job seen data master hlook =>
      obtain ⟨rfl, q, hq, hpos, _⟩ := look_merge hlook
      refine ⟨q, hq, hpos, ?_⟩
      rw [mergeStart]
      split_ifs
      · trivial
      · exact hk
  | @calloc master data seen q hq =>
      obtain ⟨r, hr, hpos, _⟩ := hk
      obtain rfl := Option.some.inj (hr.symm.trans hq)
      refine ⟨r, hr, hpos, ?_⟩
      simp [MergeStage.Knows, callocMaster, le_trans zero_le_one hpos]
  | @measure master data seen q hq =>
      obtain ⟨r, hr, hpos, hbits⟩ := hk
      obtain rfl := Option.some.inj (hr.symm.trans hq)
      obtain ⟨bits, hsome, hlen⟩ := Option.map_eq_some_iff.mp hbits
      have hfits := ((hset _ rfl (by simp [Thread.replaced])).stored r hr).fits
      refine ⟨r, hr, hpos, ?_⟩
      show (master.bitfield.getD []).length = (UInt32.ofInt r.bitfieldLength).toNat
      rw [hsome, toNat_ofInt (le_trans zero_le_one hpos) hfits]
      exact hlen
  | same master data seen hq hlen =>
      obtain ⟨r, hr, hpos, hwhole⟩ := hk
      obtain rfl := Option.some.inj (hr.symm.trans hq)
      exact ⟨r, hr, hpos, hwhole, hlen⟩
  | differ => exact hk.choose_spec.2.2
  | combine master n data seen _ _ hor =>
      obtain ⟨r, hr, hpos, hwhole, hlen⟩ := hk
      obtain ⟨hwhole', hlen'⟩ := hwhole.orByte hor
      exact ⟨r, hr, hpos, hwhole', hlen.trans hlen'.symm⟩
  | combined => exact hk.choose_spec.2.2.1
  | unlock job seen hit => exact Job.Knows.after hk hit
  | refuse => exact (rfl : Master.Whole ⟨none, 0⟩)
  | replace p htype => exact ⟨hmsg _ rfl htype, trivial⟩
  | within htype hq hidx => exact ⟨_, hq, hidx⟩
  | null => exact hk
  | free => exact hk
  | malloc msg hlen hq =>
      refine ⟨hk.1, by simp [Move.shared, Shared.renew], _, (peer_setPeer hq _ _).trans (if_pos rfl), ?_⟩
      exact congrArg some hlen
  | copy msg _ hq hcopy =>
      obtain ⟨hlen, hlive, r, hr, hbits⟩ := hk
      obtain rfl := Option.some.inj (hr.symm.trans hq)
      exact ⟨hlen, hlive, _, (peer_setPeer hq _ _).trans (if_pos rfl),
        copyBitfield_length hlen hbits hcopy⟩
  | watch => trivial
  | report => trivial
  | _ => trivial

/-- Of the bitfield a thread uses no other thread has begun to replace it, if nothing clashes. -/
theorem BitsHold.settled_used (hb : BitsHold m) (hclear : ¬ Clash m) (hl : m.threads[t]? = some l)
    (hused : l.used = some p) (hnot : l.replaced ≠ some p) : Settled m.shared p := by
  refine hb.settled p fun k hk hrep => ?_
  obtain ⟨u, hu⟩ := List.mem_iff_getElem?.mp hk
  by_cases htu : u = t
  · subst htu
    obtain rfl := Option.some.inj (hl.symm.trans hu)
    exact hnot hrep
  · exact hclear ⟨u, t, k, l, p, htu, hu, hl, hrep, hused⟩

/-- A thread that is in `peer_update_bitfield` has begun to replace the bitfield, or begins to now. -/
theorem Moves.replaced {msg : PeerMessage} {stage : UpdateStage} (h : Moves t s l i mv)
    (hl : l = .update p msg stage) : l.replaced = some p ∨ mv.thread.replaced = some p := by
  subst hl
  cases h with
  | null => exact Or.inr rfl
  | free => exact Or.inr rfl
  | _ => exact Or.inl rfl

/-- **A step between states that do not clash.** -/
theorem BitsHold.step {a : Nat × Input} (hb : BitsHold m) (hclear : ¬ Clash m) (hclear' : ¬ Clash m')
    (hmsg : ∀ msg, a.2 = .message msg → Decoded msg) (hstep : swarm.step m a = some m') :
    BitsHold m' := by
  obtain ⟨t, i⟩ := a
  obtain ⟨l, mv, owner, hl, hmove, _, rfl⟩ := Program.step_eq_some_iff.mp hstep
  have hm := moves_of_move hmove
  have hset := getElem?_set_of_some hl mv.thread
  have hself : (m.threads.set t mv.thread)[t]? = some mv.thread := (hset t).trans (if_pos rfl)
  have hothers : ∀ u k, u ≠ t → m.threads[u]? = some k → (m.threads.set t mv.thread)[u]? = some k :=
    fun u k hne hk => (hset u).trans ((if_neg hne.symm).trans hk)
  refine ⟨fun p hnone => ?_, fun u k hk => ?_⟩
  · refine hm.settled (hb.knows t l hl) (fun hnot => hb.settled p fun k hk => ?_)
      (hnone _ (List.mem_of_getElem? hself))
    obtain ⟨u, hu⟩ := List.mem_iff_getElem?.mp hk
    by_cases htu : u = t
    · subst htu
      obtain rfl := Option.some.inj (hl.symm.trans hu)
      exact hnot
    · exact hnone k (List.mem_of_getElem? (hothers u k htu hu))
  · by_cases htu : u = t
    · subst htu
      obtain rfl := Option.some.inj (hself.symm.trans hk)
      exact hm.knows (hb.knows u l hl) (fun p hused hnot => hb.settled_used hclear hl hused hnot) hmsg
    · have hk' : m.threads[u]? = some k := by
        rw [← hk]
        exact ((hset u).trans (if_neg (Ne.symm htu))).symm
      -- another thread: what it uses is not what this one replaces
      refine (hb.knows u k hk').of_alike fun p hused => hm.alike fun msg stage heq => ?_
      rcases hm.replaced heq with hrep | hrep
      · exact hclear ⟨t, u, l, k, p, Ne.symm htu, hl, hk', hrep, hused⟩
      · exact hclear' ⟨t, u, _, k, p, Ne.symm htu, hself, hk, hrep, hused⟩

/-! ## Whole runs -/

/-- A message comes with the bytes it announces. -/
def Input.Fits : Input → Prop
  | .message msg => Decoded msg
  | _ => True

instance : DecidablePred Input.Fits
  | .message msg => inferInstanceAs (Decidable (msg.type = .msgBitfield → _))
  | .step => isTrue trivial
  | .malloc _ => isTrue trivial
  | .room _ => isTrue trivial
  | .refused => isTrue trivial
  | .accepted => isTrue trivial

/-- A state of an interleaving in no state of which a bitfield is used that another thread has begun to
replace. -/
structure Undisturbed (threads : List Thread) (m : Monitor Shared Thread) : Prop where
  /-- The threads have not moved. -/
  initial : ∀ l ∈ threads, l.Initial
  /-- There are not too many reports. -/
  count : reportCount threads < 2 ^ 32
  /-- Moves of theirs lead to the state, and nothing clashes on the way. -/
  run : ∃ acts : List (Nat × Input), acts.foldlM swarm.step (started threads) = some m ∧
    StepsMeet swarm.step (started threads) acts fun m a => ¬ Clash m ∧ a.2.Fits
  /-- Nothing clashes in the end. -/
  clear : ¬ Clash m

/-- The state is reached. -/
theorem Undisturbed.reached (h : Undisturbed threads m) : Reached threads m :=
  ⟨h.initial, h.count, h.run.imp fun _ hrun => hrun.1⟩

/-- At first there is no bitfield. -/
theorem bitsHold_started (h : ∀ l ∈ threads, l.Initial) : BitsHold (started threads) where
  settled p _ := ⟨List.not_mem_nil, fun q hq =>
    absurd hq (by simp [started, Monitor.start, clientInit, Shared.peer])⟩
  knows t l hl := by
    have hinit := h l (List.mem_of_getElem? hl)
    cases l <;> trivial

/-- **In a run without clashes** the bitfields hold. -/
theorem Undisturbed.bitsHold (h : Undisturbed threads m) : BitsHold m := by
  obtain ⟨acts, hrun, hmeet⟩ := h.run
  refine @invariant_of_stepsMeet _ _ swarm.step _ m acts _ (fun m => ¬ Clash m → BitsHold m)
    (fun _ => bitsHold_started h.initial) ?_ hmeet hrun h.clear
  intro m a m' hb hok hstep hclear'
  refine (hb hok.1).step hok.1 hclear' (fun msg hmsg => ?_) hstep
  have hfits := hok.2
  rw [hmsg] at hfits
  exact hfits

/-- A step to a state without a clash. -/
theorem Undisturbed.step {a : Nat × Input} (h : Undisturbed threads m) (hfits : a.2.Fits)
    (hclear : ¬ Clash m') (hstep : swarm.step m a = some m') : Undisturbed threads m' := by
  obtain ⟨acts, hrun, hmeet⟩ := h.run
  exact ⟨h.initial, h.count,
    ⟨acts ++ [a], foldlM_concat_eq_some_iff.mpr ⟨m, hrun, hstep⟩,
      hmeet.concat hrun ⟨h.clear, hfits⟩⟩, hclear⟩

/-- A bitfield of two bytes. -/
def twoBytes : PeerMessage := ⟨.msgBitfield, 2, 0, 0, [0xa0, 0x01], []⟩

/-- A tracker puts a peer into the list, and a thread talks to it and gets the bitfield. -/
def oneBitfield : List (Nat × Input) :=
  oneReport ++ List.replicate 8 (0, .step) ++
    [(0, .accepted), (0, .message twoBytes), (0, .step), (0, .room [9, 9]), (0, .step), (0, .step)]

end Flood.Client.Swarm
