import Flood.Client.Swarm

/-!
# The list of peers under its mutex

What the threads of `Client/Swarm.lean` rely on, and that no interleaving of them breaks it.

* `Extends` — what every move keeps of the peers and of the reports dealt with.
* `assertions` — the list is whole while its mutex is free; a thread in a loop over it has passed the
  elements before the cursor; a thread in `list_append` has made so much of its node.
  `sound` — every single move keeps them.
-/

namespace Flood.Client.Swarm

open Flood.Lib Flood.LinkedList Flood.Peer
open Flood.Tracker (DiscoveredPeer)

variable {t u : Nat} {s s' : Shared} {l l' k : Thread} {i : Input} {mv : Move Shared Thread}
  {p : UInt64} {q q' : PeerT} {job job' : Job} {seen : List Elem} {data : Elem}

/-! ## What every move keeps -/

/-- A message leaves the address, the port and the status of a peer alone. -/
theorem handleMessage_keeps {msg : PeerMessage} (h : handleMessage q msg = some q') :
    q'.ipAddress = q.ipAddress ∧ q'.port = q.port ∧ q'.status = q.status := by
  unfold handleMessage at h
  split at h
  · rw [peerUpdateBitfield] at h
    split_ifs at h
    obtain rfl := Option.some.inj h
    exact ⟨rfl, rfl, rfl⟩
  · rw [peerUpdateBitfieldIndex] at h
    split_ifs at h with hout hval
    · obtain rfl := Option.some.inj h
      exact ⟨rfl, rfl, rfl⟩
    · simp only [Option.bind_eq_bind, Option.bind_eq_some_iff, Option.some.injEq] at h
      obtain ⟨bits, _, byte, _, rfl⟩ := h
      exact ⟨rfl, rfl, rfl⟩
    · exact absurd rfl hval
  all_goals
    obtain rfl := Option.some.inj h
    exact ⟨rfl, rfl, rfl⟩

/-- Copying a bitfield leaves them alone too. -/
theorem copyBitfield_keeps {msg : PeerMessage} (h : copyBitfield msg q = some q') :
    q'.ipAddress = q.ipAddress ∧ q'.port = q.port ∧ q'.status = q.status := by
  rw [copyBitfield, Option.bind_eq_bind, Option.bind_eq_some_iff] at h
  obtain ⟨bits, -, h⟩ := h
  split_ifs at h
  obtain rfl := Option.some.inj h
  exact ⟨rfl, rfl, rfl⟩

/-- So does setting a bit. -/
theorem markBit_keeps {idx : UInt32} (h : markBit idx q = some q') :
    q'.ipAddress = q.ipAddress ∧ q'.port = q.port ∧ q'.status = q.status := by
  simp only [markBit, Option.bind_eq_bind, Option.bind_eq_some_iff, Option.some.injEq] at h
  obtain ⟨bits, -, byte, -, rfl⟩ := h
  exact ⟨rfl, rfl, rfl⟩

/-- The reports dealt with stay, and so do the peers: a peer keeps its address and its port, and it
does not become new. -/
structure Extends (s s' : Shared) : Prop where
  /-- The reports dealt with. -/
  handled : s.handled <+: s'.handled
  /-- The peers. -/
  peer : ∀ p q, s.peer p = some q → ∃ q', s'.peer p = some q' ∧ q'.ipAddress = q.ipAddress ∧
    q'.port = q.port ∧ (q.status ≠ .new → q'.status ≠ .new)

/-- Nothing changes. -/
theorem Extends.refl (s : Shared) : Extends s s :=
  ⟨List.prefix_refl _, fun _ q hq => ⟨q, hq, rfl, rfl, id⟩⟩

/-- A bitfield is freed. -/
theorem extends_free (s : Shared) (p : UInt64) : Extends s (s.free p) :=
  ⟨List.prefix_refl _, fun _ q hq => ⟨q, hq, rfl, rfl, id⟩⟩

/-- A bitfield points to another block. -/
theorem Extends.renew (h : Extends s s') (p : UInt64) : Extends s (s'.renew p) :=
  ⟨h.handled, h.peer⟩

/-- The list does not matter. -/
theorem extends_withList (s : Shared) (list : ListT) : Extends s (s.withList list) :=
  ⟨List.prefix_refl _, fun _ q hq => ⟨q, hq, rfl, rfl, id⟩⟩

/-- More reports are dealt with. -/
theorem extends_note (s : Shared) (list : ListT) (more : List Handled) :
    Extends s ((s.withList list).note more) :=
  ⟨List.prefix_append _ _, fun _ q hq => ⟨q, hq, rfl, rfl, id⟩⟩

/-- A peer is written to. -/
theorem extends_setPeer (hq : s.peer p = some q) (hip : q'.ipAddress = q.ipAddress)
    (hport : q'.port = q.port) (hnew : q.status ≠ .new → q'.status ≠ .new) :
    Extends s (s.setPeer p q') := by
  refine ⟨List.prefix_refl _, fun a r hr => ?_⟩
  rw [peer_setPeer hq]
  split_ifs with hap
  · subst hap
    rw [hq] at hr
    obtain rfl := Option.some.inj hr
    exact ⟨q', rfl, hip, hport, hnew⟩
  · exact ⟨r, hr, rfl, rfl, id⟩

/-- A peer is allocated. -/
theorem extends_alloc (hp : s.peer p = none) (q : PeerT) : Extends s (s.alloc p q) := by
  refine ⟨List.prefix_refl _, fun a r hr => ?_⟩
  rw [peer_alloc hp]
  split_ifs with hap
  · subst hap
    rw [hp] at hr
    exact absurd hr (by simp)
  · exact ⟨r, hr, rfl, rfl, id⟩

/-- **Every move** takes nothing back. -/
theorem Moves.extends (h : Moves t s l i mv) : Extends s mv.shared := by
  cases h with
  | lock => exact extends_withList _ _
  | rewind => exact extends_withList _ _
  | fetch => exact extends_withList _ _
  | unlock => exact extends_note _ _ _
  | claim hq => exact extends_setPeer hq rfl rfl fun _ => by simp
  | refuse hq => exact extends_setPeer hq rfl rfl fun _ => by simp
  | hear _ _ hq hmsg =>
      obtain ⟨hip, hport, hstatus⟩ := handleMessage_keeps hmsg
      exact extends_setPeer hq hip hport fun hne => hstatus ▸ hne
  | free => exact extends_free _ _
  | malloc msg _ hq =>
      refine Extends.renew ?_ _
      exact extends_setPeer hq rfl rfl id
  | copy msg _ hq hcopy =>
      obtain ⟨hip, hport, hstatus⟩ := copyBitfield_keeps hcopy
      exact extends_setPeer hq hip hport fun hne => hstatus ▸ hne
  | length msg hq => exact extends_setPeer hq rfl rfl id
  | mark idx _ hq hmark =>
      obtain ⟨hip, hport, hstatus⟩ := markBit_keeps hmark
      exact extends_setPeer hq hip hport fun hne => hstatus ▸ hne
  | alloc report rest hfresh => exact extends_alloc hfresh _
  | lockAppend => exact extends_withList _ _
  | create => exact extends_withList _ _
  | link => exact extends_withList _ _
  | count => exact extends_note _ _ _
  | unlockAppend => exact extends_withList _ _
  | _ => exact Extends.refl _

/-- The reports a thread deals with are its own. -/
theorem Moves.handled (h : Moves t s l i mv) :
    ∃ more, mv.shared.handled = s.handled ++ more ∧ ∀ d ∈ more, d.tracker = t := by
  cases h with
  | unlock job seen hit =>
      refine ⟨job.noted t hit, rfl, fun d hd => ?_⟩
      cases job <;> cases hit <;> simp_all [Job.noted]
  | count report p rest => exact ⟨[⟨t, report, some p⟩], rfl, by simp⟩
  | _ => exact ⟨[], (List.append_nil _).symm, by simp⟩

/-- A thread outside that stays outside leaves the list alone. -/
theorem Moves.outside (h : Moves t s l i mv) (hl : l.inside = false)
    (hl' : mv.thread.inside = false) :
    mv.shared.list = s.list ∧ mv.shared.handled = s.handled := by
  cases h with
  | lock => exact absurd hl' (by simp [Move.thread, Thread.inside])
  | lockAppend => exact absurd hl' (by simp [Move.thread, Thread.inside])
  | _ => first
    | exact ⟨rfl, rfl⟩
    | exact absurd hl (by simp [Thread.inside])

/-! ## Assertions -/

/-- The list and its mutex, which is locked or free. -/
structure Whole (locked : Bool) (s : Shared) : Prop where
  /-- The mutex was never waited for by its owner. -/
  mutex : mutexAfter s.list.mutex = some locked
  /-- The list holds the pointers put into it. -/
  linked : ∃ ps, Linked s.list ps s.elems

/-- What holds in every state. -/
structure Always (s : Shared) : Prop where
  /-- An element is a pointer. -/
  elemSize : s.list.elemSize = 8
  /-- A block is allocated once. -/
  nodup : (s.client.blocks.map Prod.fst).Nodup
  /-- A pointer in the list points to the peer that was reported. -/
  listed : ∀ d ∈ s.handled, ∀ p, d.addr = some p →
    ∃ q, s.peer p = some q ∧ q.ipAddress = d.report.ip ∧ q.port = d.report.port
  /-- Where an element was taken for the peer reported, its low half is the address reported. -/
  taken : ∀ pre d post, s.handled = pre ++ d :: post → d.addr = none →
    ∃ p ∈ pre.filterMap Handled.addr, p.toUInt32 = d.report.ip

/-- The loop passes the element. -/
def Job.Passes (s : Shared) : Job → Elem → Prop
  | .select, e => ∃ q, s.peer (leWord64 e) = some q ∧ q.status ≠ .new
  | .find report _, e => leWord (e.take 4) ≠ report.ip
  | _, _ => True

/-- The loop may be left with the pointer. -/
def Job.Hits : Job → UInt64 → Prop
  | .select, _ => True
  | .find report _, p => p.toUInt32 = report.ip
  | _, _ => False

/-- The cursor, and the elements passed over. -/
def Stage.Stands (s : Shared) (job : Job) (seen : List Elem) (ps : List Nat) : Stage → Prop
  | .enter => seen = []
  | .rewind => seen = []
  | .test => LinkedList.Stands s.list ps seen.length ∧ seen <+: s.elems
  | .fetch => LinkedList.Stands s.list ps seen.length ∧ seen <+: s.elems ∧
      seen.length < s.elems.length
  | .look data => LinkedList.Stands s.list ps (seen.length + 1) ∧ seen ++ [data] <+: s.elems
  | .stop none => seen = s.elems
  | .stop (some p) => seen ++ [leBytes64 p] <+: s.elems ∧ job.Hits p

/-- What a thread relies on in a loop over the list. -/
structure Scans (s : Shared) (job : Job) (stage : Stage) (seen : List Elem) : Prop where
  /-- The mutex is locked. -/
  mutex : mutexAfter s.list.mutex = some true
  /-- The list is whole, and the cursor stands behind the elements passed over. -/
  stands : ∃ ps, Linked s.list ps s.elems ∧ stage.Stands s job seen ps
  /-- The loop passed them. -/
  passed : ∀ e ∈ seen, job.Passes s e

/-- What a thread relies on in `list_append`. -/
def AppendStage.Builds (s : Shared) (p : UInt64) : AppendStage → Prop
  | .enter => True
  | .create => Whole true s
  | .link node => mutexAfter s.list.mutex = some true ∧ ∃ ps, Linked s.list ps s.elems ∧ node ∉ ps ∧
      s.list.node (some node) = some ⟨leBytes64 p, none, none⟩
  | .count => mutexAfter s.list.mutex = some true ∧
      ∃ ps, Linked s.list.incLen ps (s.elems ++ [leBytes64 p])
  | .release => Whole true s

/-- The peer that was reported is allocated. -/
def Made (s : Shared) (report : DiscoveredPeer) (p : UInt64) : Prop :=
  ∃ q, s.peer p = some q ∧ q.ipAddress = report.ip ∧ q.port = report.port

/-- What a thread relies on where it is. -/
def Thread.Relies (s : Shared) : Thread → Prop
  | .scan _ .enter seen => seen = []
  | .scan job stage seen => Scans s job stage seen
  | .merge _ _ data seen => Scans s (.count ⟨none, 0⟩) (.look data) seen
  | .claim p => p ∈ s.listed
  | .connect p => p ∈ s.listed
  | .talk p => p ∈ s.listed
  | .update p _ _ => p ∈ s.listed
  | .mark p _ => p ∈ s.listed
  | .append stage report p _ => Made s report p ∧ stage.Builds s p
  | _ => True

/-- The reports thread `t` has dealt with. -/
def Shared.handledBy (s : Shared) (t : Nat) : List DiscoveredPeer :=
  (s.handled.filter fun d => d.tracker = t).map Handled.report

/-- What the threads rely on, where thread `t` is to deal with the reports `script t`. -/
def assertions (script : Nat → List DiscoveredPeer) : Assertions Shared Thread where
  always := Always
  free := Whole false
  here t l s := l.Relies s ∧ s.handledBy t ++ l.outstanding = script t

/-- The list has fewer pointers than its counter can count. -/
def Counts (s : Shared) : Prop := s.listed.length < 2 ^ 32

/-! ### Other threads -/

/-- The pointers in the list stay. -/
theorem Extends.listed (h : Extends s s') (hp : p ∈ s.listed) : p ∈ s'.listed := by
  obtain ⟨more, hmore⟩ := h.handled
  rw [Shared.listed, ← hmore, List.filterMap_append]
  exact List.mem_append_left _ hp

/-- A peer that was allocated stays. -/
theorem Extends.made {report : DiscoveredPeer} (h : Extends s s') (hm : Made s report p) :
    Made s' report p := by
  obtain ⟨q, hq, hip, hport⟩ := hm
  obtain ⟨q', hq', hip', hport', _⟩ := h.peer p q hq
  exact ⟨q', hq', hip'.trans hip, hport'.trans hport⟩

/-- An element that the loop passes it passes ever after: no peer becomes new. -/
theorem Extends.passes (h : Extends s s') (hp : job.Passes s data) : job.Passes s' data := by
  cases job with
  | select =>
      obtain ⟨q, hq, hne⟩ := hp
      obtain ⟨q', hq', _, _, hne'⟩ := h.peer _ q hq
      exact ⟨q', hq', hne' hne⟩
  | _ => exact hp

/-- While the list stays the same, a thread in a loop over it may rely on what it relied on. -/
theorem Scans.of_extends {stage : Stage} (hs : Scans s job stage seen) (h : Extends s s')
    (hlist : s'.list = s.list) (helems : s'.elems = s.elems) : Scans s' job stage seen := by
  obtain ⟨ps, hl, hstands⟩ := hs.stands
  refine ⟨hlist ▸ hs.mutex, ⟨ps, by rw [hlist, helems]; exact hl, ?_⟩,
    fun e he => h.passes (hs.passed e he)⟩
  cases stage with
  | stop hit => cases hit <;> simpa only [Stage.Stands, hlist, helems] using hstands
  | _ => simpa only [Stage.Stands, hlist, helems] using hstands

/-- While the list stays the same, a thread in `list_append` may rely on what it relied on. -/
theorem AppendStage.builds_congr (stage : AppendStage) (hlist : s'.list = s.list)
    (helems : s'.elems = s.elems) (h : stage.Builds s p) : stage.Builds s' p := by
  have hwhole : Whole true s → Whole true s' := by
    rintro ⟨hmutex, hlinked⟩
    exact ⟨hlist ▸ hmutex, by rw [hlist, helems]; exact hlinked⟩
  cases stage with
  | enter => exact h
  | create => exact hwhole h
  | release => exact hwhole h
  | _ => simpa only [AppendStage.Builds, hlist, helems] using h

/-- **A thread is not disturbed** by what takes nothing back and leaves the list alone, if it has
the mutex. -/
theorem Thread.Relies.of_extends (hk : k.Relies s) (h : Extends s s')
    (hsame : k.inside = true → s'.list = s.list ∧ s'.elems = s.elems) : k.Relies s' := by
  cases k with
  | scan job stage seen =>
      cases stage with
      | enter => exact hk
      | _ => exact Scans.of_extends hk h (hsame rfl).1 (hsame rfl).2
  | merge master stage data seen => exact Scans.of_extends hk h (hsame rfl).1 (hsame rfl).2
  | claim p => exact h.listed hk
  | connect p => exact h.listed hk
  | talk p => exact h.listed hk
  | update p msg stage => exact h.listed hk
  | mark p idx => exact h.listed hk
  | append stage report p rest =>
      refine ⟨h.made hk.1, ?_⟩
      cases stage with
      | enter => trivial
      | _ => exact AppendStage.builds_congr _ (hsame rfl).1 (hsame rfl).2 hk.2
  | _ => trivial

/-- What the others deal with is not what thread `u` deals with. -/
theorem Moves.handledBy_of_ne (h : Moves t s l i mv) (hne : t ≠ u) :
    mv.shared.handledBy u = s.handledBy u := by
  obtain ⟨more, hmore, htracker⟩ := h.handled
  have hnone : more.filter (fun d => d.tracker = u) = [] := by
    rw [List.filter_eq_nil_iff]
    intro d hd
    rw [htracker d hd]
    simpa using hne
  rw [Shared.handledBy, hmore, List.filter_append, hnone, List.append_nil]
  rfl

/-- **No move disturbs another thread.** -/
theorem relies_others (h : Moves t s l i mv) (hk : k.Relies s)
    (hapart : k.inside = true → l.inside = false ∧ mv.thread.inside = false) :
    k.Relies mv.shared := by
  refine hk.of_extends h.extends fun hin => ?_
  obtain ⟨hlist, hhandled⟩ := h.outside (hapart hin).1 (hapart hin).2
  refine ⟨hlist, ?_⟩
  rw [Shared.elems, Shared.listed, hhandled]
  rfl

/-! ### What holds always -/

/-- A change of the list, the elements of which are pointers, and of the peers. -/
theorem Always.of_extends (ha : Always s) (h : Extends s s') (hsize : s'.list.elemSize = 8)
    (hhandled : s'.handled = s.handled) (hnodup : (s'.client.blocks.map Prod.fst).Nodup) :
    Always s' where
  elemSize := hsize
  nodup := hnodup
  listed := by
    rw [hhandled]
    intro d hd p hp
    exact h.made (ha.listed d hd p hp)
  taken := by
    rw [hhandled]
    exact ha.taken

/-- A change of the list. -/
theorem Always.withList (ha : Always s) {list : ListT} (hsize : list.elemSize = 8) :
    Always (s.withList list) :=
  ha.of_extends (extends_withList s list) hsize rfl ha.nodup

/-- A write to a peer keeps the addresses. -/
theorem addrs_setPeer (s : Shared) (p : UInt64) (q : PeerT) :
    (s.setPeer p q).client.blocks.map Prod.fst = s.client.blocks.map Prod.fst := by
  show (s.client.blocks.map _).map Prod.fst = _
  rw [List.map_map]
  refine List.map_congr_left fun b _ => ?_
  rw [Function.comp_apply]
  split_ifs <;> rfl

/-- A write to a peer. -/
theorem Always.written (ha : Always s) (h : Extends s s') (hhandled : s'.handled = s.handled)
    (hclient : s'.client = (s.setPeer p q').client) : Always s' := by
  refine ha.of_extends h ?_ hhandled ?_
  · show s'.client.peers.elemSize = 8
    rw [hclient]
    exact ha.elemSize
  · rw [hclient, addrs_setPeer]
    exact ha.nodup

/-- An allocation. -/
theorem Always.alloc (ha : Always s) (hp : s.peer p = none) (q : PeerT) : Always (s.alloc p q) := by
  refine ha.of_extends (extends_alloc hp q) ha.elemSize rfl ?_
  show ((s.client.blocks ++ [(p, q)]).map Prod.fst).Nodup
  rw [List.map_append, List.nodup_append]
  refine ⟨ha.nodup, List.nodup_singleton p, ?_⟩
  intro a hmem b hb hab
  rw [hab, List.mem_singleton.mp hb] at hmem
  obtain ⟨c, hc, hcp⟩ := List.mem_map.mp hmem
  have hnone := List.lookup_eq_none_iff.mp hp c hc
  rw [hcp] at hnone
  exact absurd hnone (by simp)

/-- More reports are dealt with. -/
theorem Always.note (ha : Always s) {more : List Handled}
    (hlisted : ∀ d ∈ more, ∀ p, d.addr = some p → Made s d.report p)
    (htaken : ∀ pre d post, more = pre ++ d :: post → d.addr = none →
      ∃ p ∈ s.listed, p.toUInt32 = d.report.ip) : Always (s.note more) where
  elemSize := ha.elemSize
  nodup := ha.nodup
  listed := by
    intro d hd p hp
    rcases List.mem_append.mp hd with hd | hd
    · exact ha.listed d hd p hp
    · exact hlisted d hd p hp
  taken := by
    intro pre d post hsplit hnone
    rcases List.append_eq_append_iff.mp hsplit with ⟨mid, rfl, hmid⟩ | ⟨mid, hmid, hpost⟩
    · obtain ⟨p, hp, hlow⟩ := htaken mid d post hmid hnone
      refine ⟨p, ?_, hlow⟩
      rw [List.filterMap_append]
      exact List.mem_append_left _ hp
    · cases mid with
      | nil =>
          obtain ⟨p, hp, hlow⟩ := htaken [] d post (by simpa using hpost.symm) hnone
          refine ⟨p, ?_, hlow⟩
          rw [List.append_nil] at hmid
          rw [← hmid]
          exact hp
      | cons e mid =>
          rw [List.cons_append] at hpost
          obtain ⟨rfl, _⟩ := List.cons.inj hpost
          exact ha.taken pre d mid hmid hnone

/-! ### The mutex -/

/-- One more call. -/
theorem mutexAfter_concat {log : List MutexCall} {held : Bool} (h : mutexAfter log = some held)
    (c : MutexCall) : mutexAfter (log ++ [c]) = afterCall held c := by
  rw [mutexAfter] at h
  rw [mutexAfter, List.foldlM_append, h]
  cases hc : afterCall held c with
  | none => simp [hc]
  | some b => simp [hc]

/-- Locking the mutex while it is free. -/
theorem Whole.lock (h : Whole false s) : Whole true (s.withList s.list.lock) := by
  obtain ⟨ps, hl⟩ := h.linked
  exact ⟨mutexAfter_concat h.mutex .lock, ps, hl.congr rfl rfl rfl rfl rfl⟩

/-- Unlocking the mutex by its owner. -/
theorem Whole.unlock (h : Whole true s) : Whole false (s.withList s.list.unlock) := by
  obtain ⟨ps, hl⟩ := h.linked
  exact ⟨mutexAfter_concat h.mutex .unlock, ps, hl.congr rfl rfl rfl rfl rfl⟩

/-- The list while a thread is in a loop over it. -/
theorem Scans.whole {stage : Stage} (h : Scans s job stage seen) : Whole true s := by
  obtain ⟨ps, hl, _⟩ := h.stands
  exact ⟨h.mutex, ps, hl⟩

/-! ### The body of a loop -/

/-- How a loop goes on. -/
theorem look_pass_cases (h : job.look s data = some (.pass job')) :
    (job = .select ∧ job' = .select ∧ ∃ q, s.peer (leWord64 data) = some q ∧ q.status ≠ .new) ∨
      (∃ master, job = .count master ∧ job' = .count master) ∨
      (∃ n n', job = .unchecked n ∧ job' = .unchecked n') ∨
      ∃ report rest, job = .find report rest ∧ job' = .find report rest ∧
        leWord (data.take 4) ≠ report.ip := by
  cases job with
  | select =>
      simp only [Job.look, Option.bind_eq_bind, Option.bind_eq_some_iff, Option.some.injEq] at h
      obtain ⟨q, hq, h⟩ := h
      split_ifs at h with hnew
      exact Or.inl ⟨rfl, (Looked.pass.inj h).symm, q, hq, hnew⟩
  | count master =>
      simp only [Job.look, Option.bind_eq_bind, Option.bind_eq_some_iff, Option.some.injEq] at h
      obtain ⟨q, _, h⟩ := h
      split_ifs at h
      exact Or.inr (Or.inl ⟨master, rfl, (Looked.pass.inj h).symm⟩)
  | unchecked n =>
      simp only [Job.look, Option.bind_eq_bind, Option.bind_eq_some_iff, Option.some.injEq] at h
      obtain ⟨q, _, h⟩ := h
      exact Or.inr (Or.inr (Or.inl ⟨n, _, rfl, (Looked.pass.inj h).symm⟩))
  | find report rest =>
      simp only [Job.look, Option.some.injEq] at h
      split_ifs at h with hip
      exact Or.inr (Or.inr (Or.inr ⟨report, rest, rfl, (Looked.pass.inj h).symm, hip⟩))

/-- The loop goes on: it passes the element, and keeps what it is for. -/
theorem look_pass (h : job.look s data = some (.pass job')) :
    job.Passes s data ∧ (∀ e, job.Passes s e → job'.Passes s e) ∧
      job'.outstanding = job.outstanding := by
  obtain ⟨rfl, rfl, hnew⟩ | ⟨master, rfl, rfl⟩ | ⟨n, n', rfl, rfl⟩ | ⟨report, rest, rfl, rfl, hip⟩ :=
    look_pass_cases h
  · exact ⟨hnew, fun _ he => he, rfl⟩
  · exact ⟨trivial, fun _ he => he, rfl⟩
  · exact ⟨trivial, fun _ he => he, rfl⟩
  · exact ⟨hip, fun _ he => he, rfl⟩

/-- The loop is left with the pointer it looks at. -/
theorem look_hit {a : UInt64} (h : job.look s (leBytes64 a) = some (.hit p)) : p = a ∧ job.Hits p := by
  cases job with
  | select =>
      simp only [Job.look, Option.bind_eq_bind, Option.bind_eq_some_iff, Option.some.injEq,
        leWord64_leBytes64] at h
      obtain ⟨q, hq, h⟩ := h
      split_ifs at h with hnew
      exact ⟨(Looked.hit.inj h).symm, trivial⟩
  | count master =>
      simp only [Job.look, Option.bind_eq_bind, Option.bind_eq_some_iff, Option.some.injEq] at h
      obtain ⟨q, _, h⟩ := h
      split_ifs at h
  | unchecked n =>
      simp only [Job.look, Option.bind_eq_bind, Option.bind_eq_some_iff, Option.some.injEq] at h
      obtain ⟨q, _, h⟩ := h
      exact absurd h (by simp)
  | find report rest =>
      simp only [Job.look, Option.some.injEq, leWord_take_leBytes64, leWord64_leBytes64] at h
      split_ifs at h with hip
      obtain rfl := Looked.hit.inj h
      exact ⟨rfl, hip⟩

/-- A bitfield is combined that is there and, as its length says, not empty. -/
theorem look_merge {master : Master} (h : job.look s data = some (.merge master)) :
    job = .count master ∧ ∃ q, s.peer (leWord64 data) = some q ∧ 1 ≤ q.bitfieldLength ∧
      q.bitfield ≠ none := by
  cases job with
  | select =>
      simp only [Job.look, Option.bind_eq_bind, Option.bind_eq_some_iff, Option.some.injEq] at h
      obtain ⟨q, _, h⟩ := h
      split_ifs at h
  | count master' =>
      simp only [Job.look, Option.bind_eq_bind, Option.bind_eq_some_iff, Option.some.injEq] at h
      obtain ⟨q, hq, h⟩ := h
      split_ifs at h with hempty
      obtain rfl := Looked.merge.inj h
      obtain ⟨hpos, hbits⟩ := not_or.mp hempty
      exact ⟨rfl, q, hq, not_lt.mp hpos, hbits⟩
  | unchecked n =>
      simp only [Job.look, Option.bind_eq_bind, Option.bind_eq_some_iff, Option.some.injEq] at h
      obtain ⟨q, _, h⟩ := h
      exact absurd h (by simp)
  | find report rest =>
      simp only [Job.look, Option.some.injEq] at h
      split_ifs at h

/-! ### The steps of a loop -/

/-- An element is a pointer in the list. -/
theorem exists_pointer (h : data ∈ s.elems) : ∃ a ∈ s.listed, leBytes64 a = data :=
  List.mem_map.mp h

/-- Rewinding the cursor. -/
theorem Scans.rewind (h : Scans s job .rewind seen) :
    Scans (s.withList (listIterStart s.list)) job .test seen := by
  obtain ⟨ps, hl, hseen⟩ := h.stands
  have hl' : Linked (listIterStart s.list) ps s.elems := hl.congr rfl rfl rfl rfl rfl
  obtain rfl : seen = [] := hseen
  exact ⟨h.mutex, ⟨ps, hl', stands_zero hl' rfl, List.nil_prefix⟩, by simp⟩

/-- There is an element left. -/
theorem Scans.more (h : Scans s job .test seen) (hnext : listIterHasNext s.list = true) :
    Scans s job .fetch seen := by
  obtain ⟨ps, hl, hstands, hseen⟩ := h.stands
  exact ⟨h.mutex, ⟨ps, hl, hstands, hseen, (listIterHasNext_iff hl hstands).mp hnext⟩, h.passed⟩

/-- There is none left: the loop has passed them all. -/
theorem Scans.ended (h : Scans s job .test seen) (hnext : listIterHasNext s.list = false) :
    Scans s job (.stop none) seen := by
  obtain ⟨ps, hl, hstands, hseen⟩ := h.stands
  refine ⟨h.mutex, ⟨ps, hl, ?_⟩, h.passed⟩
  have hend := listIterHasNext_iff hl hstands
  rw [hnext] at hend
  exact hseen.eq_of_length_le (not_lt.mp (by simpa using hend))

/-- Delivering an element. -/
theorem Scans.fetch {list : ListT} (h : Scans s job .fetch seen)
    (hnext : listIterNext s.list = some (some data, list)) :
    Scans (s.withList list) job (.look data) seen := by
  obtain ⟨ps, hl, hstands, hseen, hlt⟩ := h.stands
  obtain ⟨list₁, hnext₁, hl₁, hstands₁, hmutex, _⟩ := listIterNext_spec hl hstands
  obtain ⟨hdata, rfl⟩ := Prod.mk.inj (Option.some.inj (hnext.symm.trans hnext₁))
  refine ⟨hmutex ▸ h.mutex, ⟨ps, hl₁, hstands₁, ?_⟩, h.passed⟩
  obtain ⟨rest, hrest⟩ := hseen
  show seen ++ [data] <+: s.elems
  rw [← hrest, List.getElem?_append_right le_rfl, Nat.sub_self] at hdata
  cases rest with
  | nil => exact absurd hdata (by simp)
  | cons e rest =>
      obtain rfl := Option.some.inj hdata
      exact ⟨rest, by rw [← hrest, List.append_assoc]; rfl⟩

/-- Passing an element. -/
theorem Scans.pass (h : Scans s job (.look data) seen) (hpass : job.Passes s data)
    (hsame : ∀ e, job.Passes s e → job'.Passes s e) : Scans s job' .test (seen ++ [data]) := by
  obtain ⟨ps, hl, hstands, hseen⟩ := h.stands
  refine ⟨h.mutex, ⟨ps, hl, ?_, hseen⟩, fun e he => ?_⟩
  · rw [List.length_append]
    exact hstands
  · rcases List.mem_append.mp he with he | he
    · exact hsame e (h.passed e he)
    · obtain rfl := List.mem_singleton.mp he
      exact hsame e hpass

/-- Leaving the loop with a pointer. -/
theorem Scans.hit (h : Scans s job (.look data) seen) (hlook : job.look s data = some (.hit p)) :
    Scans s job (.stop (some p)) seen := by
  obtain ⟨ps, hl, hstands, hseen⟩ := h.stands
  have hmem : data ∈ s.elems := hseen.subset (List.mem_append_right _ List.mem_cons_self)
  obtain ⟨a, _, rfl⟩ := exists_pointer hmem
  obtain ⟨rfl, hhits⟩ := look_hit hlook
  exact ⟨h.mutex, ⟨ps, hl, hseen, hhits⟩, h.passed⟩

/-- Combining a bitfield, whatever has been combined so far. -/
theorem Scans.merge {master : Master} (h : Scans s (.count master) (.look data) seen) (master' : Master) :
    Scans s (.count master') (.look data) seen :=
  ⟨h.mutex, h.stands, fun _ _ => trivial⟩

/-- The pointer a loop was left with is in the list. -/
theorem Scans.mem_listed (h : Scans s job (.stop (some p)) seen) : p ∈ s.listed ∧ job.Hits p := by
  obtain ⟨ps, _, hseen, hhits⟩ := h.stands
  have hmem : leBytes64 p ∈ s.elems := hseen.subset (List.mem_append_right _ List.mem_cons_self)
  obtain ⟨a, ha, heq⟩ := exists_pointer hmem
  have hpa : a = p := by rw [← leWord64_leBytes64 a, heq, leWord64_leBytes64]
  exact ⟨hpa ▸ ha, hhits⟩

/-! ### The steps of `list_append` -/

/-- Making the node. -/
theorem builds_create {node : Nat} {list : ListT} (ha : Always s) (h : AppendStage.Builds s p .create)
    (hcreate : createNode s.list (leBytes64 p) = some (node, list)) :
    AppendStage.Builds (s.withList list) p (.link node) := by
  obtain ⟨hmutex, ps, hl⟩ := h
  have htake : (leBytes64 p).take s.list.elemSize = leBytes64 p := by
    rw [ha.elemSize, List.take_of_length_le (le_of_eq (length_leBytes64 p))]
  rw [createNode, if_pos (by rw [ha.elemSize, length_leBytes64])] at hcreate
  obtain ⟨rfl, rfl⟩ := Prod.mk.inj (Option.some.inj hcreate)
  refine ⟨hmutex, ps, hl.alloc _, hl.notMem_new, ?_⟩
  refine (ListT.node_alloc.trans (if_pos rfl)).trans ?_
  rw [htake]

/-- Linking it in. -/
theorem exists_link {node : Nat} (ha : Always s) (hc : Counts s)
    (h : AppendStage.Builds s p (.link node)) :
    ∃ list, linkLast s.list node = some list ∧
      AppendStage.Builds (s.withList list) p .count ∧ list.elemSize = s.list.elemSize := by
  obtain ⟨hmutex, ps, hl, hnot, hnode⟩ := h
  have hsize : (leBytes64 p).length = s.list.elemSize := by rw [ha.elemSize, length_leBytes64]
  have hbuilt : ∃ list ps', linkLast s.list node = some list ∧
      Linked list.incLen ps' (s.elems ++ [leBytes64 p]) ∧ Effect s.list list [] := by
    by_cases hz : s.list.len = 0
    · have hnil : s.elems = [] := by
        refine (hl.of_len_zero hz).resolve_right fun hfull => ?_
        rw [Shared.elems, List.length_map] at hfull
        exact absurd hc (by rw [Counts, hfull]; exact lt_irrefl _)
      obtain ⟨list, hlink, hl', heffect⟩ := linkLast_zero hz hnode hsize
      exact ⟨list, [node], hlink, by rw [hnil]; exact hl', heffect⟩
    · obtain ⟨list, hlink, hl', heffect⟩ := linkLast_spec hl hz hnode hnot hsize
      exact ⟨list, ps ++ [node], hlink, hl', heffect⟩
  obtain ⟨list, ps', hlink, hl', heffect⟩ := hbuilt
  have hlog : list.mutex = s.list.mutex := heffect.mutex.trans (List.append_nil _)
  exact ⟨list, hlink, ⟨hlog ▸ hmutex, ps', hl'⟩, heffect.elemSize⟩

/-- What linking it in leaves. -/
theorem builds_link {node : Nat} {list : ListT} (ha : Always s) (hc : Counts s)
    (h : AppendStage.Builds s p (.link node)) (hlink : linkLast s.list node = some list) :
    AppendStage.Builds (s.withList list) p .count ∧ list.elemSize = s.list.elemSize := by
  obtain ⟨list', hlink', hbuilds⟩ := exists_link ha hc h
  obtain rfl := Option.some.inj (hlink.symm.trans hlink')
  exact hbuilds

/-- Counting it. -/
theorem builds_count {report : DiscoveredPeer} (h : AppendStage.Builds s p .count) :
    Whole true ((s.withList s.list.incLen).note [⟨t, report, some p⟩]) := by
  obtain ⟨hmutex, ps, hl⟩ := h
  refine ⟨hmutex, ps, ?_⟩
  show Linked s.list.incLen ps
    (((s.handled ++ [(⟨t, report, some p⟩ : Handled)]).filterMap Handled.addr).map leBytes64)
  rw [List.filterMap_append, List.map_append]
  exact hl

/-! ## Every single move keeps the assertions -/

/-- What holds always. -/
theorem Moves.always (h : Moves t s l i mv) (ha : Always s) (hc : Counts s) (hr : l.Relies s) :
    Always mv.shared := by
  have hext := h.extends
  cases h with
  | lock => exact ha.withList ha.elemSize
  | rewind => exact ha.withList ha.elemSize
  | fetch job seen hnext =>
      obtain ⟨ps, hl, hstands, _⟩ := Scans.stands hr
      obtain ⟨list₁, hnext₁, _, _, _, hsize⟩ := listIterNext_spec hl hstands
      obtain ⟨_, rfl⟩ := Prod.mk.inj (Option.some.inj (hnext.symm.trans hnext₁))
      exact ha.withList (hsize.trans ha.elemSize)
  | unlock job seen hit =>
      have hlist : Always (s.withList (listIterStopSafe s.list)) := ha.withList ha.elemSize
      refine hlist.note ?_ ?_
      · intro d hd p hp
        cases job <;> cases hit <;> simp_all [Job.noted]
      · intro pre d post hsplit _
        have hmem : d ∈ job.noted t hit := by
          rw [hsplit]
          exact List.mem_append_right _ List.mem_cons_self
        cases hit with
        | none => cases job <;> exact absurd hmem (by simp [Job.noted])
        | some p =>
            obtain ⟨hp, hhits⟩ := Scans.mem_listed hr
            cases job with
            | find report rest =>
                obtain rfl := List.mem_singleton.mp hmem
                exact ⟨p, hp, hhits⟩
            | _ => exact absurd hmem (by simp [Job.noted])
  | claim => exact ha.written hext rfl rfl
  | refuse => exact ha.written hext rfl rfl
  | hear => exact ha.written hext rfl rfl
  | free => exact ha.of_extends hext ha.elemSize rfl ha.nodup
  | malloc => exact ha.written hext rfl rfl
  | copy => exact ha.written hext rfl rfl
  | length => exact ha.written hext rfl rfl
  | mark => exact ha.written hext rfl rfl
  | alloc report rest hfresh => exact ha.alloc hfresh _
  | lockAppend => exact ha.withList ha.elemSize
  | create report p rest hcreate =>
      rw [createNode] at hcreate
      split_ifs at hcreate
      obtain ⟨_, rfl⟩ := Prod.mk.inj (Option.some.inj hcreate)
      exact ha.withList ha.elemSize
  | link report p rest hlink =>
      exact ha.withList ((builds_link ha hc hr.2 hlink).2.trans ha.elemSize)
  | count report p rest =>
      have hlist : Always (s.withList s.list.incLen) := ha.withList ha.elemSize
      refine hlist.note ?_ ?_
      · intro d hd a hda
        obtain rfl := List.mem_singleton.mp hd
        obtain rfl := Option.some.inj hda
        exact hr.1
      · intro pre d post hsplit hnone
        have hmem : d ∈ [(⟨t, report, some p⟩ : Handled)] := by
          rw [hsplit]
          exact List.mem_append_right _ List.mem_cons_self
        obtain rfl := List.mem_singleton.mp hmem
        exact absurd hnone (by simp)
  | unlockAppend => exact ha.withList ha.elemSize
  | _ => exact ha

/-- A thread that acquires the mutex. -/
theorem Moves.relies_acquire (h : Moves t s l i (.acquire s' l')) (hfree : Whole false s)
    (hr : l.Relies s) : l'.Relies s' := by
  cases h with
  | lock job seen =>
      obtain ⟨hmutex, ps, hl⟩ := hfree.lock
      obtain rfl : seen = [] := hr
      exact ⟨hmutex, ⟨ps, hl, rfl⟩, by simp⟩
  | lockAppend report p rest => exact ⟨hr.1, hfree.lock⟩

/-- A thread that releases the mutex. -/
theorem Moves.relies_release (h : Moves t s l i (.release s' l')) (hr : l.Relies s) :
    Whole false s' ∧ l'.Relies s' := by
  cases h with
  | unlock job seen hit =>
      have hunlock := (Scans.whole hr).unlock
      have hlisted : ∀ a ∈ s.listed,
          a ∈ ((s.withList (listIterStopSafe s.list)).note (job.noted t hit)).listed :=
        fun a ha => (extends_note s _ _).listed ha
      have hsame : ((s.withList (listIterStopSafe s.list)).note (job.noted t hit)).elems =
          s.elems := by
        show ((s.handled ++ job.noted t hit).filterMap Handled.addr).map leBytes64 = _
        rw [List.filterMap_append]
        cases job <;> cases hit <;> simp [Job.noted, Shared.elems, Shared.listed]
      obtain ⟨hmutex, ps, hl⟩ := hunlock
      refine ⟨⟨hmutex, ps, ?_⟩, ?_⟩
      · rw [hsame]
        exact hl
      · cases hit with
        | none => cases job <;> trivial
        | some p =>
            cases job with
            | select => exact hlisted p (Scans.mem_listed hr).1
            | _ => trivial
  | unlockAppend report p rest => exact ⟨Whole.unlock hr.2, trivial⟩

/-- A thread that makes another move. -/
theorem Moves.relies_go (h : Moves t s l i (.go s' l')) (ha : Always s) (hc : Counts s)
    (hr : l.Relies s) : l'.Relies s' := by
  have hext := h.extends
  cases h with
  | empty => trivial
  | begin => rfl
  | rewind => exact Scans.rewind hr
  | more job seen hnext => exact Scans.more hr hnext
  | ended job seen hnext => exact Scans.ended hr hnext
  | fetch job seen hnext => exact Scans.fetch hr hnext
  | pass job seen hlook =>
      obtain ⟨hpass, hsame, _⟩ := look_pass hlook
      exact Scans.pass hr hpass hsame
  | hit job seen hlook => exact Scans.hit hr hlook
  | merge job seen hlook =>
      obtain ⟨rfl, _⟩ := look_merge hlook
      exact Scans.merge hr _
  | calloc => exact hr
  | measure => exact hr
  | same => exact hr
  | differ => exact Scans.pass hr trivial fun _ _ => trivial
  | combine => exact hr
  | combined => exact Scans.pass hr trivial fun _ _ => trivial
  | tally => trivial
  | claim hq => exact hext.listed hr
  | refuse hq => rfl
  | accept p => exact hr
  | replace => exact hr
  | beyond => exact hr
  | within => exact hr
  | hear => exact hext.listed hr
  | null => exact hr
  | free => exact hext.listed hr
  | malloc => exact hext.listed hr
  | copy => exact hext.listed hr
  | length => exact hext.listed hr
  | mark => exact hext.listed hr
  | watch => rfl
  | report report rest => rfl
  | alloc report rest hfresh =>
      exact ⟨⟨_, (peer_alloc hfresh _ _).trans (if_pos rfl), rfl, rfl⟩, trivial⟩
  | create report p rest hcreate => exact ⟨hr.1, builds_create ha hr.2 hcreate⟩
  | link report p rest hlink => exact ⟨hr.1, (builds_link ha hc hr.2 hlink).1⟩
  | count report p rest => exact ⟨hext.made hr.1, builds_count hr.2⟩

/-- A thread deals with its reports in order. -/
theorem Moves.script (h : Moves t s l i mv) :
    mv.shared.handledBy t ++ mv.thread.outstanding = s.handledBy t ++ l.outstanding := by
  cases h with
  | pass job seen hlook => exact congrArg (s.handledBy t ++ ·) (look_pass hlook).2.2
  | merge job seen hlook =>
      obtain ⟨rfl, _⟩ := look_merge hlook
      rfl
  | unlock job seen hit =>
      show ((s.handled ++ job.noted t hit).filter _).map Handled.report ++
        (job.after hit).outstanding = _
      rw [List.filter_append, List.map_append, List.append_assoc]
      refine congrArg (s.handledBy t ++ ·) ?_
      cases job <;> cases hit <;> simp [Job.noted, Job.after, Thread.outstanding, Job.outstanding, scanFor]
  | count report p rest =>
      show ((s.handled ++ [(⟨t, report, some p⟩ : Handled)]).filter _).map Handled.report ++ rest = _
      rw [List.filter_append, List.map_append, List.append_assoc]
      refine congrArg (s.handledBy t ++ ·) ?_
      simp [Thread.outstanding]
  | _ => rfl

/-- **Every single move keeps the assertions.** -/
theorem sound (script : Nat → List DiscoveredPeer) : (assertions script).Sound swarm Counts where
  acquire := by
    intro t s s' l l' i hc ha hfree hr h
    have hm := moves_of_move h
    exact ⟨hm.always ha hc hr.1, hm.relies_acquire hfree hr.1, hm.script.trans hr.2⟩
  release := by
    intro t s s' l l' i hc ha hr h
    have hm := moves_of_move h
    obtain ⟨hfree, hr'⟩ := hm.relies_release hr.1
    exact ⟨hm.always ha hc hr.1, hfree, hr', hm.script.trans hr.2⟩
  go := by
    intro t s s' l l' i hc ha hr h
    have hm := moves_of_move h
    refine ⟨hm.always ha hc hr.1, ⟨hm.relies_go ha hc hr.1, hm.script.trans hr.2⟩, ?_⟩
    intro hout hfree
    obtain ⟨hlist, hhandled⟩ := hm.outside hout ((swarm.goes h).trans hout)
    have helems : s'.elems = s.elems := by
      rw [Shared.elems, Shared.listed]
      exact congrArg (fun hd => (hd.filterMap Handled.addr).map leBytes64) hhandled
    have hlist' : s'.list = s.list := hlist
    exact ⟨hlist' ▸ hfree.mutex, by rw [hlist', helems]; exact hfree.linked⟩
  others := by
    intro t u s l k i mv hc ha hl hk hne h hapart
    have hm := moves_of_move h
    exact ⟨relies_others hm hk.1 hapart, by rw [hm.handledBy_of_ne hne]; exact hk.2⟩

end Flood.Client.Swarm
