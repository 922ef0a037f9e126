import Flood.Tracker.Announce

/-!
# The connection an announce uses

* `OnlyEstablished t envs` — throughout the run, every announce request carries a connection id that
  an answer to a connect request brought before, and between calls a tracker with a socket has such
  an id.
* `ConnectsWell envs` — the first call whose socket creation succeeds receives an answer.
* `announces_established_iff` — the first holds exactly if the second does. The socket is set before
  the exchange, and no later call repeats the exchange.
-/

namespace Flood.Tracker

open Flood.Lib

variable {t : TrackerT} {env : Env} {envs : List Env} {id : UInt64} {e : Event}

/-- What was received answers the request: it is long enough and has the transaction id. -/
def Answers (req : ConnectReq) (reply : Reply) : Prop :=
  16 ≤ recvSize 16 reply ∧ netWord (received 16 reply) 4 = req.transactionId

instance (req : ConnectReq) (reply : Reply) : Decidable (Answers req reply) :=
  inferInstanceAs (Decidable (_ ∧ _))

/-- An answer to a connect request brought the connection id. -/
def Established (events : List Event) (id : UInt64) : Prop :=
  ∃ req reply, .connect req reply ∈ events ∧ Answers req reply ∧
    netWord64 (received 16 reply) 8 = id

/-- Throughout the run, announces and trackers with a socket have established connection ids. -/
structure OnlyEstablished (t : TrackerT) (envs : List Env) : Prop where
  /-- An announce request comes after the answer that brought its connection id. -/
  announced : ∀ pre req reply post, history t envs = pre ++ .announce req reply :: post →
    Established pre req.connectionId
  /-- Between calls, a tracker with a socket has an established connection id. -/
  connected : ∀ pre post, envs = pre ++ post → (trackerAfter t pre).sockFd ≠ -1 →
    Established (history t pre) (trackerAfter t pre).connectionId

/-- The socket creation fails. -/
def SocketFails (env : Env) : Prop := (createUdpSocket env (-1)).1 ≠ 0

instance (env : Env) : Decidable (SocketFails env) := inferInstanceAs (Decidable (_ ≠ _))

/-- The first call whose socket creation succeeds receives an answer. -/
def ConnectsWell (envs : List Env) : Prop :=
  ∀ pre env post, envs = pre ++ env :: post → (∀ e ∈ pre, SocketFails e) → ¬ SocketFails env →
    Answers (connectReq env) env.connectReply

/-! ## One call -/

/-- A socket that was created is not `-1`. -/
theorem createUdpSocket_fd (h : ¬ SocketFails env) : (createUdpSocket env (-1)).2 ≠ -1 := by
  unfold SocketFails createUdpSocket at h
  unfold createUdpSocket
  split_ifs at h ⊢ with h1 h2 h3
  · exact absurd h1 h
  · exact absurd h2 h
  · simp at h
  · exact h3

/-- Without a socket nothing happens. -/
theorem trackerAnnounceUdp_of_fails (ht : t.sockFd = -1) (h : SocketFails env) :
    trackerAnnounceUdp t env = ⟨some (createUdpSocket env (-1)).1, t, []⟩ := by
  unfold trackerAnnounceUdp
  rw [if_pos ht, ht]
  exact if_pos h

/-- A new socket is used to connect. -/
theorem trackerAnnounceUdp_of_connects (ht : t.sockFd = -1) (h : ¬ SocketFails env) :
    trackerAnnounceUdp t env = connect { t with sockFd := (createUdpSocket env (-1)).2 } env := by
  unfold trackerAnnounceUdp
  rw [if_pos ht, ht]
  exact if_neg h

/-- A socket that is there is used as it is. -/
theorem trackerAnnounceUdp_of_connected (ht : t.sockFd ≠ -1) :
    trackerAnnounceUdp t env = announce t env := by
  unfold trackerAnnounceUdp
  rw [if_neg ht]

/-- An announce, or what comes of it, under a connection id. -/
def Event.Under (id : UInt64) : Event → Prop
  | .connect _ _ => False
  | .announce req _ => req.connectionId = id
  | .found _ => True

/-- Announcing leaves the tracker as it is. -/
@[simp] theorem announce_tracker (t : TrackerT) (env : Env) : (announce t env).tracker = t := by
  unfold announce
  split <;> rfl

/-- Announcing is done under the connection id of the tracker. -/
theorem announce_under (t : TrackerT) (env : Env) :
    ∀ e ∈ (announce t env).events, e.Under t.connectionId := by
  intro e he
  unfold announce at he
  split at he
  · rcases List.mem_cons.mp he with rfl | he
    · rfl
    · split_ifs at he with hf
      · obtain ⟨peer, -, rfl⟩ := List.mem_map.mp he
        trivial
      · exact absurd he List.not_mem_nil
  · rw [List.mem_singleton] at he
    subst he
    rfl

/-- Connecting keeps the socket, and what comes after the connect request is done under the
connection id of the tracker. -/
theorem connect_spec (t : TrackerT) (env : Env) :
    (connect t env).tracker.sockFd = t.sockFd ∧
      ∃ rest, (connect t env).events = .connect (connectReq env) env.connectReply :: rest ∧
        ∀ e ∈ rest, e.Under (connect t env).tracker.connectionId := by
  unfold connect
  split_ifs with htid
  · exact ⟨rfl, [], rfl, fun e he => absurd he List.not_mem_nil⟩
  · refine ⟨by simp, _, rfl, ?_⟩
    intro e he
    simp only [announce_tracker]
    exact announce_under _ env e he

/-- An answer brings the connection id. -/
theorem connect_connectionId (h : Answers (connectReq env) env.connectReply) :
    (connect t env).tracker.connectionId = netWord64 (received 16 env.connectReply) 8 := by
  have hlen : ¬ recvSize 16 env.connectReply < 16 := not_lt.mpr h.1
  unfold connect receiveConnectResponse
  rw [if_neg hlen, if_neg (not_not.mpr h.2)]
  simp

/-! ## Runs -/

/-- A call without a socket adds nothing to a run. -/
theorem run_of_fails (ht : t.sockFd = -1) (h : SocketFails env) (envs : List Env) :
    history t (env :: envs) = history t envs ∧
      trackerAfter t (env :: envs) = trackerAfter t envs := by
  have hcall := trackerAnnounceUdp_of_fails ht h
  constructor
  · simp [history, calls, hcall]
  · simp [trackerAfter, hcall]

/-- A tracker with a socket stays as it is, and announces under its connection id. -/
theorem run_of_connected (ht : t.sockFd ≠ -1) (envs : List Env) :
    trackerAfter t envs = t ∧ ∀ e ∈ history t envs, e.Under t.connectionId := by
  induction envs with
  | nil => exact ⟨rfl, fun e he => absurd he List.not_mem_nil⟩
  | cons env envs ih =>
      have hcall : trackerAnnounceUdp t env = announce t env := trackerAnnounceUdp_of_connected ht
      constructor
      · simp only [trackerAfter, hcall, announce_tracker, ih.1, ite_self]
      · intro e he
        rw [history, calls, hcall, announce_tracker, List.flatMap_cons, List.mem_append] at he
        rcases he with he | he
        · rw [hcall] at he
          exact announce_under t env e he
        · split_ifs at he with hcode
          · exact ih.2 e he
          · exact absurd he List.not_mem_nil

/-- A run that begins by connecting: the connect request comes first, and everything after it is done
under the connection id that the call leaves. -/
theorem run_of_connects (ht : t.sockFd = -1) (h : ¬ SocketFails env) (envs : List Env) :
    (trackerAfter t (env :: envs)).sockFd ≠ -1 ∧
      (trackerAfter t (env :: envs)).connectionId =
        (trackerAnnounceUdp t env).tracker.connectionId ∧
      ∃ rest, history t (env :: envs) = .connect (connectReq env) env.connectReply :: rest ∧
        ∀ e ∈ rest, e.Under (trackerAnnounceUdp t env).tracker.connectionId := by
  have hcall := trackerAnnounceUdp_of_connects ht h
  obtain ⟨hsock, rest, hevents, hunder⟩ :=
    connect_spec { t with sockFd := (createUdpSocket env (-1)).2 } env
  rw [← hcall] at hsock hevents hunder
  have hconn : (trackerAnnounceUdp t env).tracker.sockFd ≠ -1 := by
    rw [hsock]
    exact createUdpSocket_fd h
  obtain ⟨hafter, hlater⟩ := run_of_connected hconn envs
  have hkeep : trackerAfter t (env :: envs) = (trackerAnnounceUdp t env).tracker := by
    rw [trackerAfter, hafter, ite_self]
  refine ⟨hkeep ▸ hconn, by rw [hkeep], ?_⟩
  rw [history, calls, List.flatMap_cons, hevents]
  refine ⟨_, rfl, ?_⟩
  intro e he
  rcases List.mem_append.mp he with he | he
  · exact hunder e he
  · split_ifs at he with hcode
    · exact hlater e he
    · exact absurd he List.not_mem_nil

/-- Connecting is the only way to an established connection id. -/
theorem established_iff {rest : List Event} (h : ∀ e ∈ rest, e.Under id) {req : ConnectReq}
    {reply : Reply} {id' : UInt64} :
    Established (.connect req reply :: rest) id' ↔
      Answers req reply ∧ netWord64 (received 16 reply) 8 = id' := by
  constructor
  · rintro ⟨req', reply', hmem, hans⟩
    rcases List.mem_cons.mp hmem with heq | hmem
    · obtain ⟨rfl, rfl⟩ := Event.connect.inj heq
      exact hans
    · exact (h _ hmem).elim
  · exact fun hans => ⟨req, reply, List.mem_cons_self, hans⟩

/-! ## The first call -/

/-- Nothing has happened yet. -/
theorem onlyEstablished_nil (ht : t.sockFd = -1) : OnlyEstablished t [] where
  announced pre req reply post h := absurd h.symm (List.append_ne_nil_of_right_ne_nil _ (by simp))
  connected pre post h hsock := by
    obtain ⟨rfl, -⟩ := List.append_eq_nil_iff.mp h.symm
    exact absurd ht hsock

/-- A first call without a socket makes no difference. -/
theorem onlyEstablished_cons_of_fails (ht : t.sockFd = -1) (h : SocketFails env) :
    OnlyEstablished t (env :: envs) ↔ OnlyEstablished t envs := by
  constructor
  · intro hest
    refine ⟨?_, fun pre post hsplit hsock => ?_⟩
    · rw [← (run_of_fails ht h envs).1]
      exact hest.announced
    · obtain ⟨hhist, hafter⟩ := run_of_fails ht h pre
      rw [← hhist, ← hafter]
      rw [← hafter] at hsock
      exact hest.connected (env :: pre) post (by rw [hsplit]; rfl) hsock
  · intro hest
    refine ⟨?_, fun pre post hsplit hsock => ?_⟩
    · rw [(run_of_fails ht h envs).1]
      exact hest.announced
    · cases pre with
      | nil => exact absurd ht hsock
      | cons env' pre =>
          obtain ⟨rfl, hsplit'⟩ := List.cons.inj hsplit
          obtain ⟨hhist, hafter⟩ := run_of_fails ht h pre
          rw [hhist, hafter]
          rw [hafter] at hsock
          exact hest.connected pre post hsplit' hsock

/-- A first call with a socket decides. -/
theorem onlyEstablished_cons_of_connects (ht : t.sockFd = -1) (h : ¬ SocketFails env) :
    OnlyEstablished t (env :: envs) ↔ Answers (connectReq env) env.connectReply := by
  constructor
  · intro hest
    obtain ⟨hsock, -, rest, hhist, hunder⟩ := run_of_connects ht h []
    have hcid := hest.connected [env] envs rfl hsock
    rw [hhist, established_iff hunder] at hcid
    exact hcid.1
  · intro hans
    have hcid : (trackerAnnounceUdp t env).tracker.connectionId =
        netWord64 (received 16 env.connectReply) 8 := by
      rw [trackerAnnounceUdp_of_connects ht h]
      exact connect_connectionId hans
    refine ⟨fun pre req reply post hsplit => ?_, fun pre post hsplit hsock => ?_⟩
    · obtain ⟨-, -, rest, hhist, hunder⟩ := run_of_connects ht h envs
      rw [hhist] at hsplit
      cases pre with
      | nil => exact absurd (List.cons.inj hsplit).1 (by simp)
      | cons e pre =>
          obtain ⟨rfl, rfl⟩ := List.cons.inj hsplit
          have hid := hunder (.announce req reply) (by simp)
          exact ⟨_, _, List.mem_cons_self, hans, (hid.trans hcid).symm⟩
    · cases pre with
      | nil => exact absurd ht hsock
      | cons env' pre =>
          obtain ⟨rfl, -⟩ := List.cons.inj hsplit
          obtain ⟨-, hkeep, rest, hhist, hunder⟩ := run_of_connects ht h pre
          rw [hhist, established_iff hunder, hkeep, hcid]
          exact ⟨hans, rfl⟩

/-- A first call without a socket makes no difference. -/
theorem connectsWell_cons_of_fails (h : SocketFails env) :
    ConnectsWell (env :: envs) ↔ ConnectsWell envs := by
  constructor
  · intro hwell pre env' post hsplit hpre hsock
    apply hwell (env :: pre) env' post (by rw [hsplit]; rfl) _ hsock
    exact List.forall_mem_cons.mpr ⟨h, hpre⟩
  · intro hwell pre env' post hsplit hpre hsock
    cases pre with
    | nil => exact absurd h ((List.cons.inj hsplit).1 ▸ hsock)
    | cons e pre =>
        apply hwell pre env' post (List.cons.inj hsplit).2 _ hsock
        exact fun e' he' => hpre e' (List.mem_cons_of_mem e he')

/-- A first call with a socket decides. -/
theorem connectsWell_cons_of_connects (h : ¬ SocketFails env) :
    ConnectsWell (env :: envs) ↔ Answers (connectReq env) env.connectReply := by
  constructor
  · exact fun hwell => hwell [] env envs rfl (fun e he => absurd he List.not_mem_nil) h
  · intro hans pre env' post hsplit hpre hsock
    cases pre with
    | nil => exact (List.cons.inj hsplit).1 ▸ hans
    | cons e pre =>
        obtain ⟨rfl, -⟩ := List.cons.inj hsplit
        exact absurd (hpre env List.mem_cons_self) h

/-- The tracker may have run before: only its socket matters. -/
theorem onlyEstablished_iff_connectsWell (ht : t.sockFd = -1) (envs : List Env) :
    OnlyEstablished t envs ↔ ConnectsWell envs := by
  induction envs with
  | nil =>
      refine iff_of_true (onlyEstablished_nil ht) ?_
      exact fun pre env post h => absurd h.symm (List.append_ne_nil_of_right_ne_nil _ (by simp))
  | cons env envs ih =>
      by_cases h : SocketFails env
      · rw [onlyEstablished_cons_of_fails ht h, connectsWell_cons_of_fails h, ih]
      · rw [onlyEstablished_cons_of_connects ht h, connectsWell_cons_of_connects h]

/-- **Announces use an established connection** throughout a run after `tracker_start` exactly if
the first exchange with the tracker is answered. -/
theorem announces_established_iff (t : TrackerT) (envs : List Env) :
    OnlyEstablished (trackerStart t) envs ↔ ConnectsWell envs :=
  onlyEstablished_iff_connectsWell rfl envs

/-- Every socket creation succeeds and nothing is ever received. -/
def silent : Env where
  parsed := 0
  resolved := 0
  socket := 3
  connectRand := 7
  connectReply := none
  connectJunk := ⟨0, 0, 0⟩
  announceRand := 8
  announceReply := none
  announceJunk := ⟨0, 0, 0, 0, 0, 0, .chain []⟩
  bufferJunk := []

/-- Two calls, neither of which receives anything: the second announces all the same. -/
theorem announce_after_silence :
    (∃ req, history (trackerStart ⟨-1, 0, [], true⟩) [silent, silent] =
        [.connect (connectReq silent) none, .announce req none]) ∧
      ¬ OnlyEstablished (trackerStart ⟨-1, 0, [], true⟩) [silent, silent] := by
  refine ⟨⟨announceReq ⟨3, 0, [], true⟩ silent, by decide +kernel⟩, fun h => ?_⟩
  exact absurd ((onlyEstablished_cons_of_connects rfl (by decide)).mp h) (by decide)

end Flood.Tracker
