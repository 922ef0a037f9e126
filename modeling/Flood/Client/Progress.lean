import Flood.Client.Bitfields

/-!
# Progress of the threads of a client

* `Thread.Awaits` — what the environment may answer to a thread.
* `exists_move` — a thread then has its next move, if what it relies on holds, of the list and of the
  bitfields.
* `remaining` — how many moves it has left up to its unlock.
* `never_stuck` — in a run in which no bitfield is used while it is replaced, a thread has its next move
  or waits for the mutex, which its owner alone can free; and a bitfield that is combined may be replaced
  at any time.
-/

namespace Flood.Client.Swarm

open Flood.Lib Flood.LinkedList Flood.Peer
open Flood.Tracker (DiscoveredPeer)

variable {t u : Nat} {s s' : Shared} {l l' k : Thread} {i : Input} {mv : Move Shared Thread}
  {p : UInt64} {q : PeerT} {job : Job} {seen : List Elem} {data : Elem} {master : Master}
  {threads : List Thread} {m m' : Monitor Shared Thread} {acts : List (Nat × Input)}

/-! ## The next move -/

/-- What the environment may answer to the thread: `malloc` returns a block that is free, or room for
the bitfield of a message, and a message comes with the bytes it announces. A tracker with nothing left
has no move. -/
def Thread.Awaits (s : Shared) : Thread → Input → Prop
  | .allocate _ _, .malloc block => s.peer block.addr = none
  | .connect _, .refused => True
  | .connect _, .accepted => True
  | .talk _, .message msg => Decoded msg
  | .update _ msg .malloc, .room junk => junk.length = msg.word0.toNat
  | .allocate _ _, _ => False
  | .connect _, _ => False
  | .talk _, _ => False
  | .update _ _ .malloc, _ => False
  | .track [], _ => False
  | _, .step => True
  | _, _ => False

/-- Is the thread about to lock the mutex? -/
def Thread.waits : Thread → Bool
  | .scan _ .enter _ => true
  | .append .enter _ _ _ => true
  | _ => false

/-- A pointer a loop looks at points to a peer. -/
theorem Scans.exists_peer (ha : Always s) (hr : Scans s job (.look data) seen) :
    ∃ q, s.peer (leWord64 data) = some q := by
  obtain ⟨ps, _, _, hseen⟩ := hr.stands
  obtain ⟨a, ha', rfl⟩ := exists_pointer (hseen.subset (List.mem_append_right _ List.mem_cons_self))
  obtain ⟨q, hq⟩ := ha.exists_peer ha'
  exact ⟨q, by rw [leWord64_leBytes64, hq]⟩

/-- The body of a loop can look at an element. -/
theorem exists_look (ha : Always s) (hr : Scans s job (.look data) seen) :
    ∃ looked, job.look s data = some looked := by
  obtain ⟨q, hq⟩ := hr.exists_peer ha
  cases job with
  | find report rest => exact ⟨_, rfl⟩
  | _ => exact ⟨_, by rw [Job.look, hq]; rfl⟩

/-- A bitfield with a byte `n`, as its length says, is there and has one. -/
theorem exists_bits {n : Nat} (h : Sized q) (hn : n < (UInt32.ofInt q.bitfieldLength).toNat) :
    ∃ bits, q.bitfield = some bits ∧ n < bits.length := by
  obtain ⟨bits, hbits, -⟩ := (nonEmpty_iff h).mpr (Nat.zero_lt_of_lt hn)
  exact ⟨bits, hbits, length_of_sized h hbits ▸ hn⟩

/-- The byte can be read. -/
theorem exists_byteAt {n : Nat} (hs : Settled s p) (hq : s.peer p = some q)
    (hn : n < (UInt32.ofInt q.bitfieldLength).toNat) : ∃ byte, s.byteAt p n = some byte := by
  obtain ⟨bits, hbits, hlt⟩ := exists_bits (hs.stored q hq).sized hn
  refine ⟨bits[n], ?_⟩
  rw [Shared.byteAt, if_neg hs.live]
  simp [hq, hbits, hlt]

/-- It can be combined. -/
theorem exists_orByte {n : Nat} (h : Master.Whole master) (hn : n < master.len.toNat) (byte : UInt8) :
    ∃ master', orByte master n byte = some master' := by
  unfold Master.Whole at h
  cases hbits : master.bitfield with
  | none =>
      rw [hbits] at h
      rw [← h] at hn
      exact absurd hn (Nat.not_lt_zero n)
  | some bits =>
      rw [hbits] at h
      have hlt : n < bits.length := h ▸ hn
      exact ⟨_, by simp [orByte, hbits, hlt]; rfl⟩

/-- A message can be copied to the room that was made for it. -/
theorem exists_copyBitfield {msg : PeerMessage} (hmsg : msg.bitfield.length = msg.word0.toNat)
    (hbits : q.bitfield.map List.length = some msg.word0.toNat) : ∃ q', copyBitfield msg q = some q' := by
  obtain ⟨bits, hsome, hlen⟩ := Option.map_eq_some_iff.mp hbits
  exact ⟨_, by simp [copyBitfield, hsome, hmsg, hlen]; rfl⟩

/-- A bit within a bitfield can be set. -/
theorem exists_markBit {idx : UInt32} (hq : Stored q) (hidx : idx / 8 < UInt32.ofInt q.bitfieldLength) :
    ∃ q', markBit idx q = some q' := by
  obtain ⟨bits, hbits, hlt⟩ := exists_bits hq.sized (UInt32.lt_iff_toNat_lt.mp hidx)
  refine ⟨{ q with bitfield := some (bits.set (idx / 8).toNat
    (bits[(idx / 8).toNat] ||| maskOf idx)) }, ?_⟩
  rw [markBit, hbits, Option.bind_eq_bind, Option.bind_some, List.getElem?_eq_getElem hlt]
  rfl

/-- A thread in a loop over the list. -/
theorem exists_scan_move {stage : Stage} (ha : Always s) (hr : (Thread.scan job stage seen).Relies s) :
    ∃ mv, Moves t s (.scan job stage seen) .step mv := by
  cases stage with
  | enter => exact ⟨_, .lock ..⟩
  | rewind => exact ⟨_, .rewind ..⟩
  | test =>
      cases hnext : listIterHasNext s.list with
      | true => exact ⟨_, .more _ _ hnext⟩
      | false => exact ⟨_, .ended _ _ hnext⟩
  | fetch =>
      obtain ⟨ps, hl, hstands, _, hlt⟩ := Scans.stands hr
      obtain ⟨list, hnext, _⟩ := listIterNext_spec hl hstands
      rw [List.getElem?_eq_getElem hlt] at hnext
      exact ⟨_, .fetch _ _ hnext⟩
  | look data =>
      obtain ⟨looked, hlook⟩ := exists_look ha hr
      cases looked with
      | pass job' => exact ⟨_, .pass _ _ hlook⟩
      | hit p => exact ⟨_, .hit _ _ hlook⟩
      | merge master => exact ⟨_, .merge _ _ hlook⟩
  | stop hit => exact ⟨_, .unlock ..⟩

/-- A thread that combines a bitfield. -/
theorem exists_merge_move {stage : MergeStage} (hk : (Thread.merge master stage data seen).Knows s)
    (hset : Settled s (leWord64 data)) : ∃ mv, Moves t s (.merge master stage data seen) .step mv := by
  obtain ⟨q, hq, -, hstage⟩ := hk
  cases stage with
  | calloc => exact ⟨_, .calloc _ _ _ hq⟩
  | measure => exact ⟨_, .measure _ _ _ hq⟩
  | compare =>
      by_cases hlen : UInt32.ofInt q.bitfieldLength = master.len
      · exact ⟨_, .same _ _ _ hq hlen⟩
      · exact ⟨_, .differ _ _ _ hq hlen⟩
  | combine n =>
      obtain ⟨hwhole, hlen⟩ := hstage
      by_cases hn : n < master.len.toNat
      · obtain ⟨byte, hbyte⟩ := exists_byteAt hset hq (hlen ▸ hn)
        obtain ⟨master', hor⟩ := exists_orByte hwhole hn byte
        exact ⟨_, .combine _ _ _ _ hn hbyte hor⟩
      · exact ⟨_, .combined _ _ _ _ (not_lt.mp hn)⟩

/-- A thread that hears a message. -/
theorem exists_talk_move {msg : PeerMessage} (hq : s.peer p = some q) :
    ∃ mv, Moves t s (.talk p) (.message msg) mv := by
  by_cases hbitfield : msg.type = .msgBitfield
  · exact ⟨_, .replace p hbitfield⟩
  · by_cases hhave : msg.type = .msgHave
    · by_cases hout : UInt32.ofInt q.bitfieldLength ≤ msg.word0 / 8
      · exact ⟨_, .beyond hhave hq hout⟩
      · exact ⟨_, .within hhave hq (UInt32.not_le.mp hout)⟩
    · have hmsg : ∃ q', handleMessage q msg = some q' := by
        unfold handleMessage
        split
        · exact absurd ‹_› hbitfield
        · exact absurd ‹_› hhave
        all_goals exact ⟨_, rfl⟩
      obtain ⟨q', hq'⟩ := hmsg
      exact ⟨_, .hear hbitfield hhave hq hq'⟩

/-- A thread that replaces a bitfield. -/
theorem exists_update_move {msg : PeerMessage} {stage : UpdateStage} (hq : s.peer p = some q)
    (hk : (Thread.update p msg stage).Knows s) (hi : (Thread.update p msg stage).Awaits s i)
    (hset : (Thread.update p msg stage).replaced ≠ some p → Settled s p) :
    ∃ mv, Moves t s (.update p msg stage) i mv := by
  obtain ⟨hmsg, hstage⟩ := hk
  cases stage with
  | free =>
      cases i with
      | step =>
          by_cases hnull : q.bitfield = none
          · exact ⟨_, .null msg hq hnull⟩
          · exact ⟨_, .free msg hq hnull (hset (by simp [Thread.replaced])).live⟩
      | _ => exact hi.elim
  | malloc =>
      cases i with
      | room junk => exact ⟨_, .malloc msg hi hq⟩
      | _ => exact hi.elim
  | copy =>
      cases i with
      | step =>
          obtain ⟨hlive, r, hr, hbits⟩ := hstage
          obtain ⟨r', hcopy⟩ := exists_copyBitfield hmsg hbits
          exact ⟨_, .copy msg hlive hr hcopy⟩
      | _ => exact hi.elim
  | length =>
      cases i with
      | step => exact ⟨_, .length msg hq⟩
      | _ => exact hi.elim

/-- **A thread has its next move**, if what it relies on holds: it follows no pointer that is null or
dangling, reads no bitfield behind its end, and copies no element that is too short. -/
theorem exists_move (ha : Always s) (hc : Counts s) (hr : l.Relies s) (hk : l.Knows s)
    (hset : ∀ p, l.used = some p → l.replaced ≠ some p → Settled s p) (hi : l.Awaits s i) :
    ∃ mv, Moves t s l i mv := by
  cases l with
  | idle =>
      cases i with
      | step =>
          by_cases hlen : listLen s.list = 0
          · exact ⟨_, .empty hlen⟩
          · exact ⟨_, .begin hlen⟩
      | _ => exact hi.elim
  | scan job stage seen =>
      cases i with
      | step => exact exists_scan_move ha hr
      | _ => cases stage <;> exact hi.elim
  | merge master stage data seen =>
      cases i with
      | step => exact exists_merge_move hk (hset _ rfl (by simp [Thread.replaced]))
      | _ => cases stage <;> exact hi.elim
  | tally master =>
      cases i with
      | step => exact ⟨_, .tally master (le_of_eq (Eq.symm hk))⟩
      | _ => exact hi.elim
  | claim p =>
      cases i with
      | step =>
          obtain ⟨q, hq⟩ := ha.exists_peer hr
          exact ⟨_, .claim hq⟩
      | _ => exact hi.elim
  | connect p =>
      cases i with
      | refused =>
          obtain ⟨q, hq⟩ := ha.exists_peer hr
          exact ⟨_, .refuse hq⟩
      | accepted => exact ⟨_, .accept p⟩
      | _ => exact hi.elim
  | talk p =>
      cases i with
      | message msg =>
          obtain ⟨q, hq⟩ := ha.exists_peer hr
          exact exists_talk_move hq
      | _ => exact hi.elim
  | update p msg stage =>
      obtain ⟨q, hq⟩ := ha.exists_peer hr
      exact exists_update_move hq hk hi (hset p rfl)
  | mark p idx =>
      cases i with
      | step =>
          have hsettled := hset p rfl (by simp [Thread.replaced])
          obtain ⟨q, hq, hidx⟩ := hk
          obtain ⟨q', hmark⟩ := exists_markBit (hsettled.stored q hq) hidx
          exact ⟨_, .mark idx hsettled.live hq hmark⟩
      | _ => exact hi.elim
  | watch =>
      cases i with
      | step => exact ⟨_, .watch⟩
      | _ => exact hi.elim
  | track rest =>
      cases rest with
      | nil => cases i <;> exact hi.elim
      | cons report rest =>
          cases i with
          | step => exact ⟨_, .report report rest⟩
          | _ => exact hi.elim
  | allocate report rest =>
      cases i with
      | malloc block => exact ⟨_, .alloc report rest hi⟩
      | _ => exact hi.elim
  | append stage report p rest =>
      cases i with
      | step =>
          cases stage with
          | enter => exact ⟨_, .lockAppend ..⟩
          | create =>
              have hroom : s.list.elemSize ≤ (leBytes64 p).length := by
                rw [ha.elemSize, length_leBytes64]
              exact ⟨_, .create _ _ _ (if_pos hroom)⟩
          | link node =>
              obtain ⟨list, hlink, _⟩ := exists_link ha hc hr.2
              exact ⟨_, .link _ _ _ hlink⟩
          | count => exact ⟨_, .count ..⟩
          | release => exact ⟨_, .unlockAppend ..⟩
      | _ => cases stage <;> exact hi.elim

/-! ## How long the mutex is held -/

/-- The most moves a loop makes for an element: a bitfield has fewer than `2 ^ 32` bytes. -/
def perElement : Nat := 2 ^ 32 + 6

/-- The moves up to the end of a loop that combines a bitfield. -/
def MergeStage.remaining (len : UInt32) : MergeStage → Nat
  | .calloc => 2 ^ 32 + 5
  | .measure => 2 ^ 32 + 4
  | .compare => 2 ^ 32 + 3
  | .combine i => len.toNat - i + 3

/-- The moves up to the unlock. -/
def remaining (s : Shared) : Thread → Nat
  | .scan _ .rewind _ => perElement * s.listed.length + 3
  | .scan _ .test seen => perElement * (s.listed.length - seen.length) + 2
  | .scan _ .fetch seen => perElement * (s.listed.length - seen.length) + 1
  | .scan _ (.look _) seen => perElement * (s.listed.length - seen.length)
  | .merge master stage _ seen =>
      perElement * (s.listed.length - (seen.length + 1)) + stage.remaining master.len
  | .append .create _ _ _ => 3
  | .append (.link _) _ _ _ => 2
  | .append .count _ _ _ => 1
  | _ => 0

/-- There are as many elements as pointers. -/
theorem length_elems (s : Shared) : s.elems.length = s.listed.length := List.length_map _

/-- An element that is looked at is one of the list. -/
theorem Scans.length_lt (h : Scans s job (.look data) seen) : seen.length < s.listed.length := by
  obtain ⟨ps, _, _, hseen⟩ := h.stands
  have hle := hseen.length_le
  rw [List.length_append, List.length_singleton, length_elems] at hle
  exact hle

/-- One element less is left. -/
theorem perElement_mul_sub {n k : Nat} (h : k < n) :
    perElement * (n - k) = perElement * (n - (k + 1)) + perElement := by
  rw [← Nat.mul_succ]
  exact congrArg (perElement * ·) (by omega)

/-- A bitfield is combined within its share of moves. -/
theorem MergeStage.remaining_lt (stage : MergeStage) (len : UInt32) :
    stage.remaining len < perElement := by
  have hlen : len.toNat < 2 ^ 32 := len.toNat_lt
  cases stage <;> simp only [MergeStage.remaining, perElement] <;> omega

/-- A thread inside that does not unlock comes closer to it. -/
theorem Moves.remaining_lt (h : Moves t s l i (.go s' l')) (hr : l.Relies s)
    (hin : l.inside = true) : remaining s' l' < remaining s l := by
  cases h with
  | rewind job seen =>
      show perElement * (s.listed.length - seen.length) + 2 < perElement * s.listed.length + 3
      have hle := Nat.mul_le_mul_left perElement (Nat.sub_le s.listed.length seen.length)
      omega
  | more => exact Nat.lt_succ_self _
  | ended job seen => exact Nat.succ_pos _
  | fetch => exact Nat.lt_succ_self _
  | @pass job seen data job' hlook =>
      have hlt := Scans.length_lt hr
      show perElement * (s.listed.length - (seen ++ [data]).length) + 2 <
        perElement * (s.listed.length - seen.length)
      rw [List.length_append, List.length_singleton, perElement_mul_sub hlt]
      exact Nat.add_lt_add_left (by decide) _
  | hit job seen hlook =>
      have hlt := Scans.length_lt hr
      show 0 < perElement * (s.listed.length - seen.length)
      exact Nat.mul_pos (by decide) (by omega)
  | @merge job seen data master hlook =>
      have hlt := Scans.length_lt hr
      show perElement * (s.listed.length - (seen.length + 1)) + _ <
        perElement * (s.listed.length - seen.length)
      rw [perElement_mul_sub hlt]
      exact Nat.add_lt_add_left (MergeStage.remaining_lt ..) _
  | calloc => exact Nat.lt_succ_self _
  | measure => exact Nat.lt_succ_self _
  | @same master data seen q hq hlen =>
      have hlt : master.len.toNat < 2 ^ 32 := master.len.toNat_lt
      show _ + (master.len.toNat - 0 + 3) < _ + (2 ^ 32 + 3)
      omega
  | @differ master data seen =>
      show perElement * (s.listed.length - (seen ++ [data]).length) + 2 < _ + (2 ^ 32 + 3)
      rw [List.length_append, List.length_singleton]
      exact Nat.add_lt_add_left (by decide) _
  | @combine master n data seen byte master' hn _ hor =>
      have hlen : master'.len = master.len := by
        simp only [orByte, Option.bind_eq_bind, Option.bind_eq_some_iff, Option.some.injEq] at hor
        obtain ⟨bits, _, old, _, rfl⟩ := hor
        rfl
      show _ + (master'.len.toNat - (n + 1) + 3) < _ + (master.len.toNat - n + 3)
      rw [hlen]
      omega
  | @combined master n data seen =>
      show perElement * (s.listed.length - (seen ++ [data]).length) + 2 <
        _ + (master.len.toNat - n + 3)
      rw [List.length_append, List.length_singleton]
      omega
  | create => exact Nat.lt_succ_self _
  | link => exact Nat.lt_succ_self _
  | count => exact Nat.lt_succ_self _
  | _ => exact absurd hin (by simp [Thread.inside])

/-- The moves up to the unlock, as a measure. -/
def remainingRank (script : Nat → List DiscoveredPeer) : Rank (assertions script) swarm Counts where
  rank := remaining
  own := fun _ _ hr hin h => (moves_of_move h).remaining_lt hr.1 hin
  other := by
    intro t u s s' l l' k i _ _ _ _ hout _ h
    obtain ⟨_, hhandled⟩ := (moves_of_move h).outside hout ((swarm.goes h).trans hout)
    have hlisted : s'.listed = s.listed := by
      rw [Shared.listed]
      exact congrArg (List.filterMap Handled.addr) hhandled
    cases k with
    | scan job stage seen => cases stage <;> simp only [remaining, hlisted] <;> exact le_rfl
    | merge master stage data seen => simp only [remaining, hlisted]; exact le_rfl
    | append stage report p rest => cases stage <;> exact le_rfl
    | _ => exact le_rfl

/-- No more moves are left than to go through the whole list. -/
theorem remaining_le (hr : l.Relies s) : remaining s l ≤ perElement * s.listed.length + 3 := by
  cases l with
  | scan job stage seen =>
      have hle := Nat.mul_le_mul_left perElement (Nat.sub_le s.listed.length seen.length)
      cases stage <;> simp only [remaining] <;> omega
  | merge master stage data seen =>
      have hlt := Scans.length_lt hr
      have hle := Nat.mul_le_mul_left perElement (Nat.sub_le s.listed.length seen.length)
      rw [perElement_mul_sub hlt] at hle
      have hstage := stage.remaining_lt master.len
      simp only [remaining]
      omega
  | append stage report p rest => cases stage <;> simp only [remaining] <;> omega
  | _ => exact Nat.zero_le _

/-- A thread inside needs nothing of the environment. -/
theorem awaits_of_inside (hin : l.inside = true) : l.Awaits s .step := by
  cases l with
  | scan job stage seen => trivial
  | merge master stage data seen => trivial
  | append stage report p rest => trivial
  | _ => exact absurd hin (by simp [Thread.inside])

/-- A thread that acquires the mutex is about to lock it. -/
theorem Moves.waits (h : Moves t s l i (.acquire s' l')) : l.waits = true := by
  cases h with
  | lock => rfl
  | lockAppend => rfl

/-! ## Whole runs -/

/-- What keeps the threads going, and what does not. -/
structure NeverStuck (m : Monitor Shared Thread) : Prop where
  /-- A thread has its next move, unless it waits for a mutex that another thread has. -/
  next : ∀ (t : Nat) (l : Thread) (i : Input), m.threads[t]? = some l → l.Awaits m.shared i →
    (∃ m', swarm.step m (t, i) = some m') ∨
      l.waits = true ∧ ∃ u, u ≠ t ∧ m.owner = some u
  /-- The owner of the mutex alone can free it, once no bitfield is being replaced. -/
  released : (∀ k ∈ m.threads, k.replaced = none) → ∀ t, m.owner = some t →
    ∃ n m', n ≤ perElement * m.shared.listed.length + 4 ∧
      (List.replicate n (t, Input.step)).foldlM swarm.step m = some m' ∧ m'.owner = none
  /-- Whatever the others do meanwhile, it makes no more moves than that before it frees it. -/
  bounded : ∀ (t : Nat) (acts : List (Nat × Input)) (m' : Monitor Shared Thread),
    acts.foldlM swarm.step m = some m' →
    (∀ pre post m', acts = pre ++ post → pre.foldlM swarm.step m = some m' → m'.owner = some t) →
    acts.countP (fun a => a.1 = t) ≤ perElement * m.shared.listed.length + 3
  /-- A bitfield that is being combined may be replaced, and then the next byte of it is not to be
  read. -/
  raced : ∀ (t u : Nat) (master : Master) (i : Nat) (data : Elem) (seen : List Elem) (msg : PeerMessage),
    m.threads[t]? = some (.merge master (.combine i) data seen) → i < master.len.toNat →
    m.threads[u]? = some (.talk (leWord64 data)) → IsBitfield msg →
    ∃ m', [(u, Input.message msg), (u, .step)].foldlM swarm.step m = some m' ∧
      m'.threads[t]? = some (.merge master (.combine i) data seen) ∧ swarm.step m' (t, .step) = none

/-- A thread inside replaces no bitfield. -/
theorem Moves.replaced_eq_none (h : Moves t s l i mv) (hin : l.inside = true) :
    mv.thread.replaced = none := by
  cases h with
  | unlock job seen hit => cases job <;> cases hit <;> rfl
  | _ => first | rfl | exact absurd hin (by simp [Thread.inside])

/-- Nothing clashes while no bitfield is being replaced. -/
theorem not_clash (h : ∀ k ∈ m.threads, k.replaced = none) : ¬ Clash m := by
  rintro ⟨t, u, l, k, p, _, hl, _, hrep, _⟩
  rw [h l (List.mem_of_getElem? hl)] at hrep
  exact absurd hrep (by simp)

/-- The next move of a thread of a run without clashes. -/
theorem Undisturbed.exists_move (h : Undisturbed threads m) (hl : m.threads[t]? = some l)
    (hi : l.Awaits m.shared i) : ∃ mv, move t m.shared l i = some mv := by
  obtain ⟨hx, hh⟩ := h.reached.invariants
  obtain ⟨mv, hmv⟩ := @Swarm.exists_move t m.shared l i hh.always h.reached.counts (hh.here t l hl).1
    (h.bitsHold.knows t l hl)
    (fun p hused hnot => h.bitsHold.settled_used h.clear hl hused hnot) hi
  exact ⟨mv, move_of_moves hmv⟩

/-- A thread that has its next move makes it, or waits for the mutex. -/
theorem step_or_waits (hx : swarm.Apart m) (hl : m.threads[t]? = some l)
    (hmove : move t m.shared l i = some mv) :
    (∃ m', swarm.step m (t, i) = some m') ∨ l.waits = true ∧ ∃ u, u ≠ t ∧ m.owner = some u := by
  have hmove' : swarm.move t m.shared l i = some mv := hmove
  cases mv with
  | acquire s' l' =>
      cases howner : m.owner with
      | none =>
          exact Or.inl ⟨_, Program.step_eq_some_iff.mpr
            ⟨l, _, some t, hl, hmove', by simp [Move.owner, howner], rfl⟩⟩
      | some u =>
          refine Or.inr ⟨(moves_of_move hmove).waits, u, ?_, rfl⟩
          rintro rfl
          have hin := (hx.inside_iff u l hl).mpr howner
          rw [(swarm.acquires hmove').1] at hin
          exact absurd hin (by simp)
  | release s' l' =>
      have howner := (hx.inside_iff t l hl).mp (swarm.releases hmove').1
      exact Or.inl ⟨_, Program.step_release hl hmove' howner⟩
  | go s' l' => exact Or.inl ⟨_, Program.step_go hl hmove'⟩

/-- A step of a thread that has the mutex, while no bitfield is being replaced. -/
theorem Undisturbed.step_owner (h : Undisturbed threads m) (hnone : ∀ k ∈ m.threads, k.replaced = none)
    (howner : m.owner = some t) (hstep : swarm.step m (t, .step) = some m') :
    Undisturbed threads m' ∧ ∀ k ∈ m'.threads, k.replaced = none := by
  obtain ⟨l, mv, owner, hl, hmove, _, rfl⟩ := Program.step_eq_some_iff.mp hstep
  have hin := (h.reached.invariants.1.inside_iff t l hl).mpr howner
  have hnone' : ∀ k ∈ m.threads.set t mv.thread, k.replaced = none := by
    intro k hk
    rcases List.mem_or_eq_of_mem_set hk with hk | rfl
    · exact hnone k hk
    · exact (moves_of_move hmove).replaced_eq_none hin
  exact ⟨h.step (show Input.Fits .step from trivial) (not_clash hnone') hstep, hnone'⟩

/-- A bitfield message is taken, and the bitfield freed. -/
theorem exists_free {msg : PeerMessage} (hl : m.threads[u]? = some (.talk p)) (hmsg : IsBitfield msg)
    (hq : m.shared.peer p = some q) (hbits : q.bitfield ≠ none) (hlive : p ∉ m.shared.freed) :
    [(u, Input.message msg), (u, .step)].foldlM swarm.step m =
      some ⟨m.owner, m.shared.free p, m.threads.set u (.update p msg .malloc)⟩ := by
  have hfirst : swarm.step m (u, .message msg) =
      some ⟨m.owner, m.shared, m.threads.set u (.update p msg .free)⟩ :=
    Program.step_go hl (@move_of_moves u _ _ _ _ (.replace p hmsg))
  have hset := (getElem?_set_of_some hl (.update p msg .free) u).trans (if_pos rfl)
  have hsecond : swarm.step ⟨m.owner, m.shared, m.threads.set u (.update p msg .free)⟩ (u, .step) =
      some ⟨m.owner, m.shared.free p,
        (m.threads.set u (.update p msg .free)).set u (.update p msg .malloc)⟩ :=
    Program.step_go hset (@move_of_moves u _ _ _ _ (.free msg hq hbits hlive))
  rw [List.set_set] at hsecond
  rw [List.foldlM_cons, hfirst, Option.bind_eq_bind, Option.bind_some, List.foldlM_cons, hsecond]
  rfl

/-- The race between a thread that combines a bitfield and one that replaces it. -/
theorem Undisturbed.raced {n : Nat} {msg : PeerMessage} (h : Undisturbed threads m)
    (ht : m.threads[t]? = some (.merge master (.combine n) data seen)) (hn : n < master.len.toNat)
    (hu : m.threads[u]? = some (.talk (leWord64 data))) (hmsg : IsBitfield msg) :
    ∃ m', [(u, Input.message msg), (u, .step)].foldlM swarm.step m = some m' ∧
      m'.threads[t]? = some (.merge master (.combine n) data seen) ∧
      swarm.step m' (t, .step) = none := by
  have hsettled := h.bitsHold.settled_used h.clear ht rfl (by simp [Thread.replaced])
  obtain ⟨q, hq, _, _, hlen⟩ := h.bitsHold.knows t _ ht
  obtain ⟨bits, hbits, -⟩ := exists_bits (hsettled.stored q hq).sized (hlen ▸ hn)
  have hne : u ≠ t := by
    rintro rfl
    exact absurd (Option.some.inj (hu.symm.trans ht)) (by simp)
  have ht' : (m.threads.set u (.update (leWord64 data) msg .malloc))[t]? =
      some (.merge master (.combine n) data seen) :=
    (getElem?_set_of_some hu _ t).trans ((if_neg hne).trans ht)
  refine ⟨_, exists_free hu hmsg hq (by simp [hbits]) hsettled.live, ht', ?_⟩
  have hstuck : swarm.move t (m.shared.free (leWord64 data)) (.merge master (.combine n) data seen)
      .step = none := by
    show move t _ (.merge master (.combine n) data seen) .step = none
    simp [move, hn, Shared.byteAt, Shared.free]
  rw [Program.step, ht', Option.bind_eq_bind, Option.bind_some, hstuck]
  rfl

/-- **No thread is ever stuck**, in a run in which no bitfield is used while another thread replaces it:
in every state a thread has its next move or waits for the mutex, and the mutex is freed by the one thread
that has it. And such a run can leave this course whenever a bitfield is being combined. -/
theorem never_stuck (h : Undisturbed threads m) : NeverStuck m := by
  obtain ⟨hx, hh⟩ := h.reached.invariants
  refine ⟨fun t l i hl hi => ?_, fun hnone t howner => ?_, fun t acts m' hrun hheld => ?_,
    fun t u master n data seen msg ht hn hu hmsg => h.raced ht hn hu hmsg⟩
  · obtain ⟨mv, hmove⟩ := @Undisturbed.exists_move t l i threads m h hl hi
    exact step_or_waits hx hl hmove
  · obtain ⟨l, hl⟩ := hx.exists_owner t howner
    obtain ⟨n, m', hn, hrun, hfree⟩ := (sound (script threads)).exists_release
      (remainingRank (script threads)) Input.step
      (I := fun m => Undisturbed threads m ∧ ∀ k ∈ m.threads, k.replaced = none)
      (fun m hm => hm.1.reached.counts)
      (fun m l hm _ _ hl hin => hm.1.exists_move hl (awaits_of_inside hin))
      (fun m m' hm howner hstep => hm.1.step_owner hm.2 howner hstep) ⟨h, hnone⟩ hx hh hl howner
    exact ⟨n, m', le_trans hn (Nat.succ_le_succ (remaining_le (hh.here t l hl).1)), hrun, hfree⟩
  · obtain ⟨l, hl⟩ := hx.exists_owner t (hheld [] acts m rfl rfl)
    refine le_trans ((sound (script threads)).count_le_of_held (remainingRank (script threads)) hx hh
      hl ?_ hheld hrun) (remaining_le (hh.here t l hl).1)
    intro pre a post m'' _ hpre
    exact (h.reached.append hpre).counts

/-- After `oneBitfield`, another thread combines the first byte. -/
def firstByte : List (Nat × Input) := oneBitfield ++ List.replicate 17 (2, .step)

/-- The threads then: the second byte is next. -/
def combiningOne : List Thread :=
  [.talk 5, .track [], .merge ⟨some [0xa0, 0x00], 2⟩ (.combine 1) (leBytes64 5) []]

/-- All of them go on, and the bitfield may be freed before the second byte is read. -/
theorem never_stuck_example :
    ∃ m : Monitor Shared Thread,
      firstByte.foldlM swarm.step (started [.idle, .track [⟨1, 2⟩], .idle]) = some m ∧
      m.owner = some 2 ∧ m.threads = combiningOne ∧ NeverStuck m := by
  have hview : (firstByte.foldlM swarm.step (started [.idle, .track [⟨1, 2⟩], .idle])).map
      (fun m => (m.owner, m.threads, decide (Clash m))) = some (some 2, combiningOne, false) := by
    decide +kernel
  obtain ⟨m, hrun, hm⟩ := Option.map_eq_some_iff.mp hview
  obtain ⟨howner, hthreads, hclear⟩ : m.owner = some 2 ∧ m.threads = combiningOne ∧ ¬ Clash m := by
    simpa using hm
  exact ⟨m, hrun, howner, hthreads, @never_stuck [.idle, .track [⟨1, 2⟩], .idle] m
    ⟨by simp [Thread.Initial], by decide, ⟨firstByte, hrun, by decide +kernel⟩, hclear⟩⟩

end Flood.Client.Swarm
