import DistributedWal.RaftClusterWrites

/-! # Whom a member takes for the leader

The hint that a member gives to clients is the leader whose call it last accepted, or the
member itself. Calls of that kind come from elected leaders alone.
-/
namespace RaftClusterHints

open LittleEndianCodec ReplicatedLog RaftPersistentState RaftNode
open WalEntry (Crc32 ieee)
open WalSegment (Dir)
open RaftNodeVotes RaftNodeFrame RaftNodeHandlers RaftNodeMoves RaftNodeEffects RaftCluster
open RaftClusterProgress RaftClusterWrites
open RaftElections (leader_was_elected elected_member)

/-- The leader that a call names, with its term. -/
def leaderOf : Request → Option (NodeId × ℕ)
  | .appendEntries req => some (req.leaderId, req.term)
  | .installSnapshot req => some (req.leaderId, req.term)
  | .requestVote _ => none

/-- The leader that a node hears of, with its term. -/
def heard : Action → Option (NodeId × ℕ)
  | .appendEntries req => some (req.leaderId, req.term)
  | .installSnapshot req => some (req.leaderId, req.term)
  | _ => none

theorem acceptLeader_currentLeader (n : Node) (term : ℕ) (leader : NodeId) :
    (n.acceptLeader term leader).currentLeader = some leader := rfl

theorem finishElection_currentLeader (n : Node) (results : List (Option RequestVoteResponse)) :
    (n.finishElection results).currentLeader = n.currentLeader ∨
      n.finishElection results = n.becomeLeader := by
  rcases finishElection_cases n results with ⟨r, _, _, hn⟩ | ⟨hn, _⟩ | hn | ⟨hn, _⟩
  · exact Or.inl (by rw [hn]; rfl)
  · exact Or.inl (by rw [hn])
  · exact Or.inl (by rw [hn])
  · exact Or.inr hn

theorem finishHeartbeats_currentLeader (n : Node)
    (results : List (Option AppendEntriesResponse)) :
    (n.finishHeartbeats results).currentLeader = n.currentLeader := by
  rcases finishHeartbeats_cases n results with hn | ⟨r, _, _, hn⟩
  · rw [hn]
  · rw [hn]
    rfl

variable {c : Cluster} {ok : Conditions} {es : List Event} {s s' : State} {id : NodeId}

/-- The hints name elected leaders, and so do the calls in which they come. -/
structure Hinted (c : Cluster) (es : List Event) (s : State) : Prop where
  calls : ∀ call ∈ s.calls, ∀ l t, leaderOf call.request = some (l, t) → .elected l t ∈ es
  hints : ∀ id ∈ c.members, ∀ n, (s.processes id).node = some n → ∀ l,
    n.currentLeader = some l → ∃ t, t ≤ n.ps.currentTerm ∧ .elected l t ∈ es
  leaders : ∀ id ∈ c.members, ∀ n, (s.processes id).node = some n → n.role = .leader →
    n.currentLeader = some id

/-- One process changes, and nothing is forgotten. -/
theorem Hinted.change (h : Hinted c es s) {es' : List Event} (s' : State) (id : NodeId)
    (hes : ∀ e ∈ es, e ∈ es')
    (hcalls : ∀ call ∈ s'.calls, call ∈ s.calls ∨
      ∀ l t, leaderOf call.request = some (l, t) → .elected l t ∈ es')
    (hothers : ∀ i, i ≠ id → s'.processes i = s.processes i)
    (hself : ∀ m, (s'.processes id).node = some m →
      (∀ l, m.currentLeader = some l → ∃ t, t ≤ m.ps.currentTerm ∧ .elected l t ∈ es') ∧
      (m.role = .leader → m.currentLeader = some id)) : Hinted c es' s' := by
  constructor
  · intro call hcall l t hnames
    rcases hcalls call hcall with hold | hnew
    · exact hes _ (h.calls call hold l t hnames)
    · exact hnew l t hnames
  · intro i hi m hm l hl
    by_cases hsame : i = id
    · subst hsame
      exact (hself m hm).1 l hl
    · rw [hothers i hsame] at hm
      obtain ⟨t, ht, hmem⟩ := h.hints i hi m hm l hl
      exact ⟨t, ht, hes _ hmem⟩
  · intro i hi m hm hrole
    by_cases hsame : i = id
    · subst hsame
      exact (hself m hm).2 hrole
    · rw [hothers i hsame] at hm
      exact h.leaders i hi m hm hrole

theorem onRequestVote_currentLeader (n : Node) (req : RequestVoteRequest) :
    (n.onRequestVote req).2.currentLeader = n.currentLeader := by
  have hobs : (observeTerm n req.term).currentLeader = n.currentLeader := by
    rw [observeTerm]
    split <;> rfl
  obtain ⟨_, ⟨_, hn⟩ | ⟨_, hn, _⟩⟩ := onRequestVote_cases n req
  · rw [hn]
    exact hobs
  · rw [hn]
    exact hobs

section

variable [Crc32]

theorem storeEntry_currentLeader (n : Node) (e : LogEntry) :
    (n.storeEntry e).currentLeader = n.currentLeader := by
  rw [Node.storeEntry]
  split
  · split <;> rfl
  · rfl

theorem storeEntries_currentLeader (n : Node) (entries : List LogEntry) :
    (n.storeEntries entries).currentLeader = n.currentLeader := by
  induction entries generalizing n with
  | nil => rfl
  | cons e entries ih => exact (ih _).trans (storeEntry_currentLeader n e)

theorem onAppendEntries_currentLeader (n : Node) (req : AppendEntriesRequest) :
    (n.onAppendEntries req).2.currentLeader =
      if req.term < n.ps.currentTerm then n.currentLeader else some req.leaderId := by
  rw [Node.onAppendEntries]
  split
  · rfl
  · have hstored := storeEntries_currentLeader (n.acceptLeader req.term req.leaderId) req.entries
    rw [acceptLeader_currentLeader] at hstored
    dsimp only
    split
    · rfl
    · split <;> exact hstored

theorem onInstallSnapshot_currentLeader (n : Node) (req : InstallSnapshotRequest) :
    (n.onInstallSnapshot req).2.currentLeader =
      if req.term < n.ps.currentTerm then n.currentLeader else some req.leaderId := by
  rcases onInstallSnapshot_node n req with ⟨hlt, hn⟩ | ⟨hnot, hn | ⟨_, _, _, _, hn⟩⟩
  · rw [hn, if_pos hlt]
  · rw [hn, if_neg hnot, acceptLeader_currentLeader]
  · rw [hn, if_neg hnot]
    rfl

theorem takeSnapshot_currentLeader (n : Node) :
    n.takeSnapshot.2.currentLeader = n.currentLeader := by
  rw [Node.takeSnapshot]
  split
  · rfl
  · dsimp only
    split
    next m hm => exact (congrArg (fun p => p.2.currentLeader) hm).symm
    next m hm => exact (congrArg (fun p => p.2.currentLeader) hm).symm

theorem commitWrite_currentLeader (n : Node) (index acks : ℕ) :
    (n.commitWrite index acks).2.currentLeader = n.currentLeader := by
  rw [Node.commitWrite]
  split
  · rfl
  · dsimp only
    split
    · exact takeSnapshot_currentLeader _
    · rfl

theorem startWrite_currentLeader (n : Node) (data : Bytes) :
    (n.startWrite data).2.currentLeader = n.currentLeader := by
  rcases startWrite_node n data with hn | hn
  · rw [hn]
  · rw [hn]
    rfl

theorem finishWrite_currentLeader (n : Node) (index : ℕ)
    (appends : List (NodeId × Option AppendEntriesResponse))
    (snapshots : List (NodeId × Option InstallSnapshotResponse)) :
    (n.finishWrite index appends snapshots).2.currentLeader = n.currentLeader := by
  rw [finishWrite_eq, commitWrite_currentLeader]
  obtain ⟨_, ⟨ni, mi, hn⟩ | ⟨t, ni, mi, _, _, hn⟩⟩ :=
    finishReplication_cases n index appends snapshots
  · rw [hn]
    rfl
  · rw [hn]
    rfl

/-- An action leaves the hint alone, or makes the node the leader, or is a leader's call that
the node accepts. -/
theorem act_currentLeader (n : Node) (a : Action) :
    (n.act a).currentLeader = n.currentLeader ∨
      (∃ results, a = .finishElection results ∧ n.act a = n.begin.becomeLeader) ∨
      ∃ l t, heard a = some (l, t) ∧ t ≤ (n.act a).ps.currentTerm ∧
        (n.act a).currentLeader = some l ∧ (n.act a).role = .follower := by
  cases a with
  | requestVote req => exact Or.inl (onRequestVote_currentLeader n.begin req)
  | appendEntries req =>
    have hhint := onAppendEntries_currentLeader n.begin req
    by_cases hstale : req.term < n.begin.ps.currentTerm
    · rw [if_pos hstale] at hhint
      exact Or.inl hhint
    · rw [if_neg hstale] at hhint
      have hterm := onAppendEntries_currentTerm n.begin req
      refine Or.inr (Or.inr ⟨_, _, rfl, ?_, hhint, ?_⟩)
      · exact (Nat.le_max_right _ _).trans (Nat.le_of_eq hterm.symm)
      · exact (onAppendEntries_role n.begin req).trans (if_neg hstale)
  | installSnapshot req =>
    have hhint := onInstallSnapshot_currentLeader n.begin req
    by_cases hstale : req.term < n.begin.ps.currentTerm
    · rw [if_pos hstale] at hhint
      exact Or.inl hhint
    · rw [if_neg hstale] at hhint
      have hterm := onInstallSnapshot_currentTerm n.begin req
      refine Or.inr (Or.inr ⟨_, _, rfl, ?_, hhint, ?_⟩)
      · exact (Nat.le_max_right _ _).trans (Nat.le_of_eq hterm.symm)
      · exact (onInstallSnapshot_role n.begin req).trans (if_neg hstale)
  | startElection => exact Or.inl rfl
  | finishElection results =>
    rcases finishElection_currentLeader n.begin results with hn | hn
    · exact Or.inl hn
    · exact Or.inr (Or.inl ⟨results, rfl, hn⟩)
  | startWrite data => exact Or.inl (startWrite_currentLeader n.begin data)
  | finishWrite index appends snapshots =>
    exact Or.inl (finishWrite_currentLeader n.begin index appends snapshots)
  | sendHeartbeats => exact Or.inl rfl
  | finishHeartbeats results => exact Or.inl (finishHeartbeats_currentLeader n.begin results)
  | clientRead fromIndex => exact Or.inl rfl

variable {n : Node} {a : Action} {o : Outcome}

/-- Only a leader names a leader, itself in its term. -/
theorem act_calls (hact : Act s id n a o) {call : Call} (hcall : call ∈ o.calls) {l : NodeId}
    {t : ℕ} (hnames : leaderOf call.request = some (l, t)) :
    n.role = .leader ∧ l = n.id ∧ t = n.ps.currentTerm := by
  cases hact with
  | startElection hup hrole =>
    obtain ⟨p, _, rfl⟩ := List.mem_map.mp hcall
    cases hnames
  | sendHeartbeats hup hrole =>
    obtain ⟨p, _, rfl⟩ := List.mem_map.mp hcall
    cases hnames
    exact ⟨hrole, rfl, rfl⟩
  | @writeStarted data index hup hwrite =>
    have hquiet := startWrite_quiet n.begin data
    have hrole : n.role = .leader := by
      rcases startWrite_cases n.begin data with ⟨⟨e, herr⟩, _⟩ | ⟨hrole, _⟩
      · rw [hwrite] at herr
        cases herr
      · exact hrole
    have hown : l = (n.begin.startWrite data).2.id ∧
        t = (n.begin.startWrite data).2.ps.currentTerm := by
      rcases List.mem_append.mp hcall with hcall | hcall
      · obtain ⟨q, hq, rfl⟩ := List.mem_map.mp hcall
        obtain ⟨p, _, rfl⟩ := List.mem_map.mp hq
        cases hnames
        exact ⟨rfl, rfl⟩
      · obtain ⟨q, hq, rfl⟩ := List.mem_map.mp hcall
        obtain ⟨p, _, hp⟩ := List.mem_filterMap.mp hq
        obtain ⟨req, hreq, rfl⟩ := Option.map_eq_some_iff.mp hp
        cases hnames
        rw [Node.snapshotFor] at hreq
        split at hreq
        · obtain ⟨snap, _, rfl⟩ := Option.map_eq_some_iff.mp hreq
          exact ⟨rfl, rfl⟩
        · cases hreq
    rw [hquiet.id, hquiet.ps] at hown
    exact ⟨hrole, hown⟩
  | requestVote => cases hcall
  | appendEntries => cases hcall
  | installSnapshot => cases hcall
  | finishElection => cases hcall
  | writeRefused => cases hcall
  | finishWrite => cases hcall
  | finishHeartbeats => cases hcall
  | clientRead => cases hcall

/-- A call that the node takes names the leader that the call came from. -/
theorem heard_call (hact : Act s id n a o) {l : NodeId} {t : ℕ} (ha : heard a = some (l, t)) :
    ∃ call ∈ s.calls, leaderOf call.request = some (l, t) := by
  cases hact with
  | appendEntries hup hcall => exact ⟨_, List.mem_of_getElem? hcall, ha⟩
  | installSnapshot hup hcall => exact ⟨_, List.mem_of_getElem? hcall, ha⟩
  | _ => cases ha

theorem hinted_act (run : ClusterRun c ok es s) (h : Hinted c es s) (hid : id ∈ c.members)
    (hact : Act s id n a o) (hb : Bounded n a) (hok : ok.action n a) :
    Hinted c (es ++ o.event.toList) (s.after id (n.act a) o) := by
  obtain ⟨votes, hv⟩ := RaftElections.invariant_of_run run
  have hn := (hv.processes id hid).node hact.node
  have hterm : n.ps.currentTerm ≤ (n.act a).ps.currentTerm := (hv.after hact hn hb).keeps.now.1
  have hnext : ClusterRun c ok (es ++ o.event.toList) (s.after id (n.act a) o) :=
    run.step (.act hid hact hb hok)
  have hnode : ((s.after id (n.act a) o).processes id).node = some (n.act a) := by
    rw [State.after_self, Process.up_node]
  apply h.change _ id (fun _ he => List.mem_append_left _ he)
  · intro call hcall
    rcases List.mem_append.mp hcall with hcall | hcall
    · exact Or.inl hcall
    · right
      intro l t hnames
      obtain ⟨hrole, rfl, rfl⟩ := act_calls hact hcall hnames
      rw [hn.self]
      exact List.mem_append_left _ (leader_was_elected run hid hact.node hrole)
  · exact fun i hi => s.after_of_ne _ _ hi
  · intro m hm
    rw [hnode] at hm
    cases hm
    constructor
    · intro l hl
      rcases act_currentLeader n a with hsame | ⟨results, rfl, hwon⟩ | ⟨l', t, ha, ht, hl', _⟩
      · rw [hsame] at hl
        obtain ⟨t, ht, hmem⟩ := h.hints id hid n hact.node l hl
        exact ⟨t, ht.trans hterm, List.mem_append_left _ hmem⟩
      · have hlead := leader_was_elected hnext hid hnode (by rw [hwon]; rfl)
        rw [hwon] at hl
        obtain rfl : n.id = l := Option.some.inj hl
        rw [hn.self]
        exact ⟨_, Nat.le_refl _, hlead⟩
      · rw [hl'] at hl
        obtain rfl := Option.some.inj hl
        obtain ⟨call, hcall, hnames⟩ := heard_call hact ha
        exact ⟨t, ht, List.mem_append_left _ (h.calls call hcall _ t hnames)⟩
    · intro hrole
      rcases act_currentLeader n a with hsame | ⟨results, rfl, hwon⟩ | ⟨_, _, _, _, _, hfollows⟩
      · rcases act_leader hrole with ⟨hold, _⟩ | ⟨results, rfl, hwon, _⟩
        · rw [hsame]
          exact h.leaders id hid n hact.node hold
        · rw [hwon, ← hn.self]
          rfl
      · rw [hwon, ← hn.self]
        rfl
      · rw [hfollows] at hrole
        cases hrole

/-- A node that starts knows no leader and leads nothing. -/
theorem hinted_start {peers : List NodeId} {stateFile snapshotFile : Option Bytes} {wal : Dir}
    (hstart : Node.start id peers stateFile wal snapshotFile = .ok n) (es : List Event) :
    (∀ l, n.currentLeader = some l → ∃ t, t ≤ n.ps.currentTerm ∧ .elected l t ∈ es) ∧
      (n.role = .leader → n.currentLeader = some id) := by
  obtain ⟨log, _, hstarted⟩ := start_cases hstart
  have hnone : n.currentLeader = none := by
    rw [Node.start] at hstart
    split at hstart
    · cases hstart
    · cases hstart
      rfl
  constructor
  · intro l hl
    rw [hnone] at hl
    cases hl
  · intro hrole
    rw [hstarted.role] at hrole
    cases hrole

theorem hinted_step {e : Option Event} (run : ClusterRun c ok es s) (h : Hinted c es s)
    (hstep : Step c ok s e s') : Hinted c (es ++ e.toList) s' := by
  cases hstep with
  | act hid hact hb hok => exact hinted_act run h hid hact hb hok
  | @crash id n a o img hid hact =>
    apply h.change (s.set id (.crashed img)) id (fun _ he => List.mem_append_left _ he)
      (fun _ hcall => Or.inl hcall)
    · exact fun i hi => s.set_of_ne _ hi
    · intro m hm
      rw [State.set_self] at hm
      cases hm
  | @restart id img n hid hdown hok hstart =>
    apply h.change (s.set id (.running n)) id (fun _ he => List.mem_append_left _ he)
      (fun _ hcall => Or.inl hcall)
    · exact fun i hi => s.set_of_ne _ hi
    · intro m hm
      rw [State.set_self] at hm
      cases hm
      exact hinted_start hstart _

theorem hinted_of_run (run : ClusterRun c ok es s) : Hinted c es s := by
  induction run with
  | @start s h =>
    have hnode : ∀ id ∈ c.members, ∀ n, (s.processes id).node = some n →
        Node.start id (c.peers id) none Dir.empty none = .ok n := by
      intro id hid n hn
      obtain ⟨m, hstart, hup⟩ := h.processes id hid
      rw [hup] at hn
      cases hn
      exact hstart
    constructor
    · intro call hcall
      rw [h.calls] at hcall
      cases hcall
    · intro id hid n hn
      exact (hinted_start (hnode id hid n hn) []).1
    · intro id hid n hn
      exact (hinted_start (hnode id hid n hn) []).2
  | step run hstep ih => exact hinted_step run ih hstep

/-- Over every run of every cluster: a leader takes itself for the leader, and whomever else a
member takes for the leader was elected, in a term that the member has reached. -/
theorem hints_name_elected_leaders (run : ClusterRun c anything es s) :
    ∀ id ∈ c.members, ∀ n, (s.processes id).node = some n →
      (n.role = .leader → n.currentLeader = some id) ∧
      ∀ l, n.currentLeader = some l →
        l ∈ c.members ∧ ∃ t, t ≤ n.ps.currentTerm ∧ .elected l t ∈ es := by
  intro id hid n hn
  have h := hinted_of_run run
  refine ⟨h.leaders id hid n hn, ?_⟩
  intro l hl
  obtain ⟨t, ht, hmem⟩ := h.hints id hid n hn l hl
  exact ⟨(elected_member run hmem).2, t, ht, hmem⟩

end

theorem hints_name_elected_leaders_first :
    ∃ es s, @ClusterRun ieee trio anything es s ∧ Event.elected "n1" 1 ∈ es ∧
      ∀ id ∈ trio.members, ∀ n, (s.processes id).node = some n →
        (n.role = .leader → n.currentLeader = some id) ∧
        ∀ l, n.currentLeader = some l →
          l ∈ trio.members ∧ ∃ t, t ≤ n.ps.currentTerm ∧ .elected l t ∈ es := by
  let _ : Crc32 := ieee
  obtain ⟨s, _, _, _, run, _⟩ := run_led_write (raftConditions_allowsPlain False False)
  exact ⟨_, s, run.anything, List.mem_cons_self, hints_name_elected_leaders run.anything⟩

end RaftClusterHints
