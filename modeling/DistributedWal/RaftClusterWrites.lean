import DistributedWal.RaftClusterProgress
import DistributedWal.RaftClusterRuns

/-! # Writes that one peer answers

A leader of a cluster of up to three writes, and one peer takes the entry or a snapshot in
its place. At the hundredth write the leader takes a snapshot of its own.
-/
namespace RaftClusterWrites

open LittleEndianCodec WalSegment WalEngine WalContents ReplicatedLog ReplicatedLogContents
open WalEntry (Crc32 ieee WalError)
open RaftPersistentState RaftSnapshot RaftNode RaftNodeFrame RaftNodeHandlers RaftNodeLogs
open RaftNodeVotes RaftNodeAppends RaftNodeMoves RaftNodeWrites RaftCluster RaftClusterLogs
open RaftClusterProgress
open RaftNodeJournal (Room)
open RaftNodeCommit (termAt_push)
open RaftClusterRuns (appendCalls_peers mem_appendCalls files_reopen Labelled Proposes
  labelled_steps run_steps)
open LabelledRuns

section

variable [Crc32] {c : Cluster} {ok : Conditions} {es : List Event} {s : State} {a b : NodeId}
  {v w : LogView} {t u k since : ℕ} {n m x y : Node} {data : Bytes}

omit [Crc32] in
theorem entriesFrom_push_last (v : LogView) (t : ℕ) (data : Bytes) :
    (v.push t data).entriesFrom (v.lastIndex + 1) = [⟨t, v.lastIndex + 1, data⟩] := by
  have hstart : max (v.lastIndex + 1) ((v.push t data).snapshotIndex + 1) = v.lastIndex + 1 :=
    Nat.max_eq_left (Nat.succ_le_succ (Nat.le_add_right _ _))
  rw [LogView.entriesFrom, hstart, LogView.push_lastIndex, if_neg (by omega)]
  show (v.entries ++ [_]).drop (v.lastIndex + 1 - v.snapshotIndex - 1) = _
  rw [show v.lastIndex + 1 - v.snapshotIndex - 1 = v.entries.length by
    rw [LogView.lastIndex]; omega]
  exact List.drop_left

omit [Crc32] in
theorem termAt_lastIndex {v : LogView} (h : 0 < v.lastIndex) :
    ∃ t, v.termAt v.lastIndex = some t := by
  by_cases hempty : v.entries = []
  · have hlast : v.lastIndex = v.snapshotIndex := by
      rw [LogView.lastIndex, hempty, List.length_nil, Nat.add_zero]
    rw [LogView.termAt, if_neg (Nat.ne_of_gt h), if_pos hlast]
    exact ⟨_, rfl⟩
  · have hpos := List.length_pos_iff.mpr hempty
    have hlow : v.snapshotIndex < v.lastIndex := by
      rw [LogView.lastIndex]
      omega
    have hin : v.lastIndex - v.snapshotIndex - 1 < v.entries.length := by
      rw [LogView.lastIndex]
      omega
    rw [termAt_above hlow, List.getElem?_eq_getElem hin]
    exact ⟨_, rfl⟩

omit [Crc32] in
theorem store_next (v : LogView) (t : ℕ) (data : Bytes) :
    store v ⟨t, v.lastIndex + 1, data⟩ = v.push t data := by
  rw [store]
  dsimp only
  rw [termAt_beyond (Nat.lt_succ_self _)]

/-- The request for the entry behind the log `v`. -/
def nextRequest (a : NodeId) (v : LogView) (t : ℕ) (data : Bytes) (commit : ℕ) :
    AppendEntriesRequest :=
  ⟨t, a, v.lastIndex, (v.termAt v.lastIndex).getD 0, [⟨t, v.lastIndex + 1, data⟩], commit⟩

/-- A leader sends its new entry to a peer that had all others. -/
theorem written_request (hm : Written x m data) (hx : Standing c a v t k x)
    (hnext : x.nextIndex b = some (v.lastIndex + 1)) :
    m.snapshotFor b (v.lastIndex + 1) = none ∧
      m.buildAppendEntriesFor b (v.lastIndex + 1) = nextRequest a v t data x.commitIndex := by
  obtain ⟨log, trail, hnode⟩ := hm.node
  have hview := hm.view
  rw [hx.term, hx.view] at hview
  have hnext : m.nextIndex b = some (v.lastIndex + 1) := by
    rw [hnode]
    exact hnext
  have hself : m.ps.currentTerm = t ∧ m.id = a ∧ m.commitIndex = x.commitIndex := by
    rw [hnode]
    exact ⟨hx.term, hx.self, rfl⟩
  constructor
  · rw [Node.snapshotFor, hnext, Option.getD_some, if_neg]
    rw [hview, Nat.not_le]
    exact Nat.lt_succ_of_le (Nat.le_add_right _ _)
  · have hprev : (v.push t data).termAt v.lastIndex = v.termAt v.lastIndex :=
      termAt_push le_rfl t data
    rw [Node.buildAppendEntriesFor, hnext, Option.getD_some, hview, Nat.add_sub_cancel, hprev,
      entriesFrom_push_last, hself.1, hself.2.1, hself.2.2, nextRequest]
    simp

theorem written_standing (hm : Written x m data) (hx : Standing c a v t (k + 1) x) :
    Standing c a (v.push t data) t k m := by
  obtain ⟨log, trail, hnode⟩ := hm.node
  have hroom := hx.room
  have hseq := hm.sequence
  have hview := hm.view
  rw [hx.term, hx.view] at hview
  refine ⟨⟨hm.healthy, hm.config, by omega⟩, ?_, ?_, ?_, hview⟩
  · rw [hnode]
    exact hx.self
  · rw [hnode]
    exact hx.peers
  · rw [hnode]
    exact hx.term

theorem step_writing (hok : AllowsPlain ok) (ha : a ∈ c.members)
    (hup : s.processes a = .running x) (hx : Standing c a v t (k + 1) x)
    (hrole : x.role = .leader) (hfit : FitsSegment data) (hlast : v.lastIndex + 1 < 2 ^ 64)
    (hbound : t < 2 ^ 64) :
    ∃ m, Labelled c ok s ([⟨t, v.lastIndex + 1, data⟩], none)
        (s.after a m ⟨some (.write (v.lastIndex + 1) data s.calls.length),
          writeCalls a m (v.lastIndex + 1), [], none⟩) ∧ Written x m data := by
  have hroom := hx.room
  have hseq : x.log.wal.nextSequence < 2 ^ 64 := by omega
  obtain ⟨log', hact, hresult, hhealthy, hcfg, hview, hseq'⟩ :=
    startWrite_accepted hrole hx.healthy hx.config hseq hfit
  have hindex : x.log.lastIndex = v.lastIndex := by rw [hx.view]
  rw [hindex] at hresult
  have hterm : (x.act (.startWrite data)).ps.currentTerm = t := by
    rw [hact]
    exact hx.term
  have hb : Bounded x (.startWrite data) := by
    rw [Bounded, hterm]
    exact hbound
  have hallowed := hok x (.startWrite data) trivial ⟨hseq, by rw [hindex]; exact hlast⟩
  have hstep : Labelled c ok s (proposed x (.startWrite data), none) _ :=
    Proposes.act ha (.writeStarted hup hresult) hb hallowed
  have hnode : x.act (.startWrite data) = (x.begin.startWrite data).2 := rfl
  rw [proposed, hresult, hx.term, ← hnode, hact] at hstep
  exact ⟨_, hstep, ⟨_, _, rfl⟩, hhealthy, hcfg, hview, hseq'⟩

theorem run_writing (run : ClusterRun c ok es s) (hok : AllowsPlain ok) (ha : a ∈ c.members)
    (hup : s.processes a = .running x) (hx : Standing c a v t (k + 1) x)
    (hrole : x.role = .leader) (hfit : FitsSegment data) (hlast : v.lastIndex + 1 < 2 ^ 64)
    (hbound : t < 2 ^ 64) :
    ∃ m, ClusterRun c ok es (s.after a m ⟨some (.write (v.lastIndex + 1) data s.calls.length),
        writeCalls a m (v.lastIndex + 1), [], none⟩) ∧ Written x m data := by
  obtain ⟨m, hstep, hm⟩ := step_writing hok ha hup hx hrole hfit hlast hbound
  have run' := run.step (Proposes.step hstep)
  rw [Option.toList_none, List.append_nil] at run'
  exact ⟨m, run', hm⟩

/-- A peer takes a request with one entry. -/
theorem step_append (hb : b ∈ c.members)
    (hup : s.processes b = .running y) (hy : Standing c b v u (k + 2) y) {q : ℕ}
    {req : AppendEntriesRequest} {e : LogEntry}
    (hcall : s.calls[q]? = some ⟨a, b, .appendEntries req⟩) (hentries : req.entries = [e])
    (hterm : u ≤ req.term) (hbound : req.term < 2 ^ 64) (hfit : FitsSegment e.data)
    (hprev : 0 < req.prevLogIndex → v.termAt req.prevLogIndex = some req.prevLogTerm)
    (hallowed : ok.action y (.appendEntries req)) :
    ∃ y' resp, Labelled c ok s ([], none)
        (s.after b y' ⟨none, [], [(q, .appendEntries resp)], none⟩) ∧
      resp.success = true ∧ resp.term = req.term ∧ Standing c b (store v e) req.term k y' ∧
      y'.role = .follower := by
  have hroom := hy.room
  have hcur : y.begin.ps.currentTerm ≤ req.term := by
    show y.ps.currentTerm ≤ req.term
    rw [hy.term]
    exact hterm
  have hpass : Passes y.begin req := by
    refine ⟨hcur, ?_⟩
    show 0 < req.prevLogIndex → y.log.termAt req.prevLogIndex = some req.prevLogTerm
    rw [hy.view]
    exact hprev
  have hspare : Spare y.begin (k + 2) := ⟨hy.healthy, hy.config, hy.room⟩
  have hrest : Takes (y.act (.appendEntries req)) (List.replicate (k + 1) ⟨0, 0, []⟩) := by
    apply onAppendEntries_takes
    apply hspare.takes
    · rw [hentries, List.length_append, List.length_replicate]
      exact Nat.le_of_eq (Nat.add_comm 1 (k + 1))
    · intro f hf
      rcases List.mem_append.mp hf with hf | hf
      · rw [hentries] at hf
        obtain rfl := List.mem_singleton.mp hf
        exact hfit
      · obtain rfl := List.eq_of_mem_replicate hf
        rw [FitsSegment]
        decide
  have htakes : Takes y.begin req.entries := by
    apply hspare.takes
    · rw [hentries]
      exact Nat.le_add_left 1 (k + 1)
    · intro f hf
      rw [hentries] at hf
      obtain rfl := List.mem_singleton.mp hf
      exact hfit
  obtain ⟨hyes, hview, _⟩ := onAppendEntries_view htakes
  have hview := hview hpass
  rw [hentries, show y.begin.log.toLogView = v from hy.view] at hview
  have hps : (y.act (.appendEntries req)).ps.currentTerm = req.term := by
    show (y.begin.onAppendEntries req).2.ps.currentTerm = req.term
    rw [onAppendEntries_ps]
    split
    · rfl
    · exact Nat.le_antisymm hcur (Nat.not_lt.mp (by assumption))
  have hrole : (y.act (.appendEntries req)).role = .follower := by
    show (y.begin.onAppendEntries req).2.role = .follower
    rw [onAppendEntries_role, if_neg (Nat.not_lt.mpr hcur)]
  have hself := act_identity y (.appendEntries req)
  have hb' : Bounded y (.appendEntries req) := by
    rw [Bounded, hps]
    exact hbound
  have hstep : Labelled c ok s ([], none) _ :=
    Proposes.act hb (.appendEntries hup hcall) hb' hallowed
  have hleft := hrest.room
  rw [List.length_replicate] at hleft
  exact ⟨_, _, hstep, hyes.mpr hpass, (onAppendEntries_cases y.begin req).1.trans hps,
    ⟨⟨hrest.healthy, hrest.config, by omega⟩, hself.1.trans hy.self, hself.2.trans hy.peers, hps,
      hview⟩, hrole⟩

theorem run_append (run : ClusterRun c ok es s) (hb : b ∈ c.members)
    (hup : s.processes b = .running y) (hy : Standing c b v u (k + 2) y) {q : ℕ}
    {req : AppendEntriesRequest} {e : LogEntry}
    (hcall : s.calls[q]? = some ⟨a, b, .appendEntries req⟩) (hentries : req.entries = [e])
    (hterm : u ≤ req.term) (hbound : req.term < 2 ^ 64) (hfit : FitsSegment e.data)
    (hprev : 0 < req.prevLogIndex → v.termAt req.prevLogIndex = some req.prevLogTerm)
    (hallowed : ok.action y (.appendEntries req)) :
    ∃ y' resp, ClusterRun c ok es
        (s.after b y' ⟨none, [], [(q, .appendEntries resp)], none⟩) ∧
      resp.success = true ∧ resp.term = req.term ∧ Standing c b (store v e) req.term k y' ∧
      y'.role = .follower := by
  obtain ⟨y', resp, hstep, hrest⟩ :=
    step_append hb hup hy hcall hentries hterm hbound hfit hprev hallowed
  have run' := run.step (Proposes.step hstep)
  rw [Option.toList_none, List.append_nil] at run'
  exact ⟨y', resp, run', hrest⟩

/-- A peer with the log of the leader takes the next entry. -/
theorem step_next (hok : AllowsPlain ok) (hb : b ∈ c.members)
    (hup : s.processes b = .running y) (hy : Standing c b v u (k + 2) y) {q commit : ℕ}
    (hcall : s.calls[q]? = some ⟨a, b, .appendEntries (nextRequest a v t data commit)⟩)
    (hterm : u ≤ t) (hbound : t < 2 ^ 64) (hfit : FitsSegment data)
    (hlast : v.lastIndex + 1 < 2 ^ 64) :
    ∃ y' resp, Labelled c ok s ([], none)
        (s.after b y' ⟨none, [], [(q, .appendEntries resp)], none⟩) ∧
      resp.success = true ∧ resp.term = t ∧ Standing c b (v.push t data) t k y' ∧
      y'.role = .follower := by
  have hroom := hy.room
  have hprev : 0 < v.lastIndex →
      v.termAt v.lastIndex = some ((v.termAt v.lastIndex).getD 0) := by
    intro hpos
    obtain ⟨p, hp⟩ := termAt_lastIndex hpos
    rw [hp]
    rfl
  have hplain : Plain y (.appendEntries (nextRequest a v t data commit)) := by
    intro e he
    obtain rfl := List.mem_singleton.mp he
    rw [hy.view]
    exact Nat.lt_succ_of_le (Nat.le_add_right _ _)
  have hroomy : Room y (.appendEntries (nextRequest a v t data commit)) := by
    refine ⟨?_, ?_, ?_⟩
    · show y.log.wal.nextSequence + 2 * 1 < 2 ^ 64
      omega
    · show y.log.lastIndex + 1 < 2 ^ 64
      rw [hy.view]
      exact hlast
    · intro e he
      obtain rfl := List.mem_singleton.mp he
      exact hbound
  rw [← store_next]
  exact step_append hb hup hy hcall rfl hterm hbound hfit hprev (hok _ _ hplain hroomy)

/-- A leader on its way to the next snapshot. -/
structure Counting (n : Node) (since : ℕ) : Prop where
  role : n.role = .leader
  trigger : n.snapshotTrigger = 100
  since : n.entriesSinceSnapshot = since

/-- `m` is `x` after its write has been committed. -/
structure Advanced (c : Cluster) (a : NodeId) (v : LogView) (t k since : ℕ) (data : Bytes)
    (x m : Node) : Prop where
  commitIndex : m.commitIndex = v.lastIndex + 1
  stays : since + 1 < 100 → Standing c a (v.push t data) t k m ∧ Counting m (since + 1) ∧
    m.snapshot = x.snapshot
  moves : since + 1 = 100 → Standing c a ⟨[], v.lastIndex + 1, t⟩ t k m ∧ Counting m 0 ∧
    m.snapshot = some ⟨v.lastIndex + 1, t, encodeEntries (v.push t data).entries⟩

theorem written_commit (hm : Written x m data) (hx : Standing c a v t (k + 1) x)
    (hcount : Counting x since) (hsmall : (c.peers a).length ≤ 2) (hlow : since < 100)
    (next matched : NodeId → Option ℕ) :
    ((withProgress m.begin next matched).commitWrite (v.lastIndex + 1) 2).1 =
        .ok (v.lastIndex + 1) ∧
      Advanced c a v t k since data x
        ((withProgress m.begin next matched).commitWrite (v.lastIndex + 1) 2).2 ∧
      ((withProgress m.begin next matched).commitWrite (v.lastIndex + 1) 2).2.nextIndex = next := by
  obtain ⟨log, trail, hnode⟩ := hm.node
  have hstand := written_standing hm hx
  set n := withProgress m.begin next matched with hn
  have hcounting : n.role = .leader ∧ n.snapshotTrigger = 100 ∧ n.entriesSinceSnapshot = since := by
    rw [hn, hnode]
    exact ⟨hcount.role, hcount.trigger, hcount.since⟩
  have hquorum : n.quorum ≤ 2 := hstand.quorum_le hsmall
  have hlast : (v.push t data).lastIndex = v.lastIndex + 1 := v.push_lastIndex t data
  by_cases hstays : since + 1 < 100
  · rw [commitWrite_counts _ hquorum (by rw [hcounting.2.1, hcounting.2.2]; exact hstays)]
    refine ⟨rfl, ⟨rfl, fun _ => ⟨?_, ?_, ?_⟩, fun heq => absurd heq (Nat.ne_of_lt hstays)⟩, rfl⟩
    · exact ⟨⟨hstand.healthy, hstand.config, hstand.room⟩, hstand.self, hstand.peers, hstand.term,
        hstand.view⟩
    · exact ⟨hcounting.1, hcounting.2.1, congrArg (· + 1) hcounting.2.2⟩
    · show m.snapshot = x.snapshot
      rw [hnode]
  · have hpoint : (v.push t data).snapshotIndex < (v.push t data).lastIndex := by
      rw [hlast]
      exact Nat.lt_succ_of_le (Nat.le_add_right _ _)
    have hterm : (v.push t data).termAt (v.push t data).lastIndex = some t := by
      rw [hlast, termAt_push_last]
    have hroom := hx.room
    have hseq := hm.sequence
    obtain ⟨hresult, hafter⟩ := commitWrite_compacts (n := n) hquorum
      (by rw [hcounting.2.1, hcounting.2.2]; omega) hstand.view hpoint hterm hstand.healthy
      hstand.config (by show m.log.wal.nextSequence < 2 ^ 64; omega)
    rw [hlast] at hresult hafter
    have hview := hafter.view
    have hsnapshot := hafter.snapshot
    have hseq' := hafter.sequence
    have hcommitted := hafter.commitIndex
    rw [hlast] at hview hsnapshot hcommitted
    refine ⟨hresult, ⟨hcommitted, fun hlt => absurd hlt hstays, fun _ => ⟨?_, ?_, hsnapshot⟩⟩,
      hafter.nextIndex⟩
    · refine ⟨⟨hafter.healthy, hafter.config, ?_⟩, hafter.quiet.id.trans hstand.self,
        hafter.quiet.peers.trans hstand.peers, ?_, hview⟩
      · rw [hseq']
        show m.log.wal.nextSequence + 1 + 2 * k < 2 ^ 64
        omega
      · rw [hafter.quiet.ps]
        exact hstand.term
    · exact ⟨hafter.quiet.role.trans hcounting.1, hafter.trigger.trans hcounting.2.1,
        hafter.since⟩

/-- The second half of a write for which one peer has answered. -/
theorem step_commit (ha : a ∈ c.members) {first : ℕ}
    (hup : s.processes a = .waiting m (.write (v.lastIndex + 1) data first))
    (hm : Written x m data) (hx : Standing c a v t (k + 1) x) (hcount : Counting x since)
    (hsmall : (c.peers a).length ≤ 2) (hlow : since < 100) (hbound : t < 2 ^ 64)
    {appends : List (NodeId × Option AppendEntriesResponse)}
    {snapshots : List (NodeId × Option InstallSnapshotResponse)}
    (happends : appends.map Prod.fst = (m.appendCalls (v.lastIndex + 1)).map Prod.fst)
    (hsnapshots : snapshots.map Prod.fst = (m.snapshotCalls (v.lastIndex + 1)).map Prod.fst)
    (hanswered : Answered s first (appends.map (fun p => p.2.map .appendEntries) ++
      snapshots.map (fun p => p.2.map .installSnapshot)))
    {next matched : NodeId → Option ℕ}
    (hcounted : m.begin.finishReplication (v.lastIndex + 1) appends snapshots =
      (2, withProgress m.begin next matched))
    (hallowed : ok.action m (.finishWrite (v.lastIndex + 1) appends snapshots)) :
    ∃ z, Labelled c ok s ([], some (.acknowledged a (v.lastIndex + 1) t data))
        (s.after a z ⟨none, [], [], some (.acknowledged a (v.lastIndex + 1) t data)⟩) ∧
      Advanced c a v t k since data x z ∧ z.nextIndex = next := by
  obtain ⟨hresult, hadvanced, hnext⟩ := written_commit hm hx hcount hsmall hlow next matched
  have hstand := written_standing hm hx
  have hfinish : m.begin.finishWrite (v.lastIndex + 1) appends snapshots =
      (withProgress m.begin next matched).commitWrite (v.lastIndex + 1) 2 := by
    rw [finishWrite_eq, hcounted]
  rw [← hfinish] at hresult hadvanced hnext
  have hterm : (m.act (.finishWrite (v.lastIndex + 1) appends snapshots)).ps.currentTerm = t := by
    by_cases hstays : since + 1 < 100
    · exact (hadvanced.stays hstays).1.term
    · exact (hadvanced.moves (by omega)).1.term
  have hb : Bounded m (.finishWrite (v.lastIndex + 1) appends snapshots) := by
    rw [Bounded, hterm]
    exact hbound
  have hstep : Labelled c ok s ([], _) _ :=
    Proposes.act ha (.finishWrite hup happends hsnapshots hanswered) hb hallowed
  rw [hresult, hstand.term] at hstep
  exact ⟨_, hstep, hadvanced, hnext⟩

/-- A leader that waits for the results of its write, among them the answer of one peer. -/
theorem step_answered {replies : List (ℕ × Response)} (ha : a ∈ c.members) (hne : b ≠ a)
    (hm : Written x m data) (hx : Standing c a v t (k + 1) x) (hcount : Counting x since)
    (hsmall : (c.peers a).length ≤ 2) (hlow : since < 100) (hbound : t < 2 ^ 64)
    {appends : List (NodeId × Option AppendEntriesResponse)}
    {snapshots : List (NodeId × Option InstallSnapshotResponse)}
    (happends : appends.map Prod.fst = (m.appendCalls (v.lastIndex + 1)).map Prod.fst)
    (hsnapshots : snapshots.map Prod.fst = (m.snapshotCalls (v.lastIndex + 1)).map Prod.fst)
    (hanswered : Answered ((s.after a m ⟨some (.write (v.lastIndex + 1) data s.calls.length),
      writeCalls a m (v.lastIndex + 1), [], none⟩).after b y ⟨none, [], replies, none⟩)
      s.calls.length (appends.map (fun p => p.2.map .appendEntries) ++
        snapshots.map (fun p => p.2.map .installSnapshot)))
    {next matched : NodeId → Option ℕ}
    (hcounted : m.begin.finishReplication (v.lastIndex + 1) appends snapshots =
      (2, withProgress m.begin next matched))
    (hallowed : ok.action m (.finishWrite (v.lastIndex + 1) appends snapshots)) :
    ∃ s' z, Labelled c ok ((s.after a m ⟨some (.write (v.lastIndex + 1) data s.calls.length),
        writeCalls a m (v.lastIndex + 1), [], none⟩).after b y ⟨none, [], replies, none⟩)
        ([], some (.acknowledged a (v.lastIndex + 1) t data)) s' ∧
      Between a b s s' ∧ s'.processes a = .running z ∧ s'.processes b = .running y ∧
      Advanced c a v t k since data x z ∧ z.nextIndex = next ∧
      ∀ call ∈ writeCalls a m (v.lastIndex + 1), call ∈ s'.calls := by
  set s₁ := s.after a m ⟨some (.write (v.lastIndex + 1) data s.calls.length),
    writeCalls a m (v.lastIndex + 1), [], none⟩ with hs₁
  set s₂ := s₁.after b y ⟨none, [], replies, none⟩ with hs₂
  have hwait : s₂.processes a =
      .waiting m (.write (v.lastIndex + 1) data s.calls.length) := by
    rw [hs₂, State.after_of_ne _ _ _ hne.symm, hs₁, State.after_self]
    rfl
  obtain ⟨z, hstep, hadvanced, hnext⟩ := step_commit ha hwait hm hx hcount hsmall hlow hbound
    happends hsnapshots hanswered hcounted hallowed
  refine ⟨_, z, hstep, ?_, ?_, ?_, hadvanced, hnext, ?_⟩
  · exact ((between_after (Or.inl rfl) s _ _).trans (between_after (Or.inr rfl) s₁ _ _)).trans
      (between_after (Or.inl rfl) s₂ _ _)
  · rw [State.after_self]
    rfl
  · rw [State.after_of_ne _ _ _ hne, hs₂, State.after_self]
    rfl
  · intro call hcall
    exact List.mem_append_left _ (List.mem_append_left _ (List.mem_append_right _ hcall))

omit [Crc32] in
theorem mem_appendTargets {index : ℕ} (hb : b ∈ n.peers)
    (hnone : n.snapshotFor b index = none) : b ∈ (n.appendCalls index).map Prod.fst :=
  List.mem_map.mpr ⟨_, List.mem_map.mpr ⟨b, List.mem_filter.mpr ⟨hb, by rw [hnone]; rfl⟩, rfl⟩, rfl⟩

omit [Crc32] in
theorem writeCalls_append {index i : ℕ}
    (hi : ((n.appendCalls index).map Prod.fst)[i]? = some b) :
    (writeCalls a n index)[i]? =
      some ⟨a, b, .appendEntries (n.buildAppendEntriesFor b index)⟩ := by
  rw [List.getElem?_map] at hi
  obtain ⟨⟨p, req⟩, hcall, rfl⟩ := Option.map_eq_some_iff.mp hi
  obtain ⟨_, _, rfl⟩ := mem_appendCalls (List.mem_of_getElem? hcall)
  apply getElem?_grow
  rw [List.getElem?_map, hcall]
  rfl

/-- A leader and a peer that has all of its log. -/
structure InStep (c : Cluster) (a b : NodeId) (v : LogView) (t k since : ℕ) (x y : Node) :
    Prop where
  leader : Standing c a v t k x
  peer : Standing c b v t k y
  counting : Counting x since
  next : x.nextIndex b = some (v.lastIndex + 1)
  follows : y.role = .follower

/-- A write that one peer stores is acknowledged. -/
theorem steps_replicated (hok : AllowsPlain ok) (ha : a ∈ c.members)
    (hb : b ∈ c.peers a) (hsmall : (c.peers a).length ≤ 2)
    (hupx : s.processes a = .running x) (hupy : s.processes b = .running y)
    (h : InStep c a b v t (k + 2) since x y) (hlow : since < 100)
    (hsnap : since + 1 < 100 ∨ ok = anything) (hbound : t < 2 ^ 64)
    (hfit : FitsSegment data) (hlast : v.lastIndex + 1 < 2 ^ 64) :
    ∃ s' x' y', Steps (Labelled c ok) s [([⟨t, v.lastIndex + 1, data⟩], none), ([], none),
        ([], some (.acknowledged a (v.lastIndex + 1) t data))] s' ∧
      Between a b s s' ∧ s'.processes a = .running x' ∧ s'.processes b = .running y' ∧
      Advanced c a v t k since data x x' ∧
      x'.nextIndex = Function.update x.nextIndex b (some (v.lastIndex + 2)) ∧
      Standing c b (v.push t data) t k y' ∧ y'.role = .follower ∧
      ∀ d ∈ c.peers a, x.nextIndex d = some (v.lastIndex + 1) →
        ⟨a, d, .appendEntries (nextRequest a v t data x.commitIndex)⟩ ∈ s'.calls := by
  obtain ⟨hbmem, hne⟩ := (c.mem_peers a ha b).mp hb
  obtain ⟨hx, hy, hcount, hnext, _⟩ := h
  have hx : Standing c a v t (k + 1) x :=
    ⟨hx.toSpare.of_le (Nat.le_succ _), hx.self, hx.peers, hx.term, hx.view⟩
  obtain ⟨m, hstep₁, hm⟩ := step_writing hok ha hupx hx hcount.role hfit hlast hbound
  have hstand := written_standing hm hx
  set s₁ := State.after s a m _ with hs₁
  obtain ⟨hnone, hreq⟩ := written_request hm hx hnext
  have hpeer : b ∈ m.peers := by
    rw [hstand.peers]
    exact hb
  obtain ⟨i, hi⟩ := List.mem_iff_getElem?.mp (mem_appendTargets hpeer hnone)
  have hcall : s₁.calls[s.calls.length + i]? =
      some ⟨a, b, .appendEntries (nextRequest a v t data x.commitIndex)⟩ := by
    rw [hs₁, State.after_calls, List.getElem?_append_right (Nat.le_add_right _ _),
      Nat.add_sub_cancel_left, ← hreq]
    exact writeCalls_append hi
  have hupy₁ : s₁.processes b = .running y := by
    rw [hs₁, State.after_of_ne _ _ _ hne]
    exact hupy
  obtain ⟨y', resp, hstep₂, hyes, hresp, hy', hfollower⟩ :=
    step_next hok hbmem hupy₁ hy hcall le_rfl hbound hfit hlast
  set s₂ := State.after s₁ b y' _ with hs₂
  set appendTargets := (m.appendCalls (v.lastIndex + 1)).map Prod.fst with htargets
  set snapshotTargets := (m.snapshotCalls (v.lastIndex + 1)).map Prod.fst with hsnapTargets
  have hnodup : appendTargets.Nodup := by
    apply (appendCalls_peers m (v.lastIndex + 1)).nodup
    rw [hstand.peers]
    exact c.peers_nodup a ha
  have hanswered : Answered s₂ s.calls.length
      ((onlyFrom b resp appendTargets).map (fun p => p.2.map .appendEntries) ++
        (silent snapshotTargets).map (fun p => p.2.map .installSnapshot)) := by
    apply answered_append
    · apply answered_onlyFrom hnodup hi
      exact List.mem_append_right _ (List.mem_singleton_self _)
    · exact answered_silent (map_silent _ _)
  have hcounted : m.begin.finishReplication (v.lastIndex + 1) (onlyFrom b resp appendTargets)
      (silent snapshotTargets) = (2, withProgress m.begin
        (Function.update m.nextIndex b (some (v.lastIndex + 2)))
        (Function.update m.matchIndex b (some (v.lastIndex + 1)))) := by
    rw [Node.finishReplication, countAppends_onlyFrom hnodup (List.mem_of_getElem? hi) hyes
      (by rw [hresp]; exact Nat.le_of_eq hstand.term.symm)]
    exact countSnapshots_silent _ _ _
  have hroom := hstand.room
  have hallowed : ok.action m (.finishWrite (v.lastIndex + 1) (onlyFrom b resp appendTargets)
      (silent snapshotTargets)) := by
    rcases hsnap with hfew | rfl
    · have hwaits : m.entriesSinceSnapshot + 1 < m.snapshotTrigger := by
        obtain ⟨log, trail, hnode⟩ := hm.node
        rw [hnode]
        show x.entriesSinceSnapshot + 1 < x.snapshotTrigger
        rw [hcount.since, hcount.trigger]
        exact hfew
      exact hok m (.finishWrite _ _ _) ⟨snapshotAcks_silent _, hwaits⟩ ⟨by omega, hlast⟩
    · exact trivial
  obtain ⟨s', z, hstep₃, hbetween, hupz, hupy', hadvanced, hznext, hcalls⟩ :=
    step_answered ha hne hm hx hcount hsmall hlow hbound (onlyFrom_targets b resp _)
      (silent_targets _) hanswered hcounted hallowed
  have hsame : m.nextIndex = x.nextIndex := by
    obtain ⟨log, trail, hnode⟩ := hm.node
    rw [hnode]
  refine ⟨s', z, y', .cons hstep₁ (.cons hstep₂ (.one hstep₃)), hbetween, hupz, hupy', hadvanced,
    hsame ▸ hznext, hy', hfollower, ?_⟩
  intro d hd hdnext
  obtain ⟨hdnone, hdreq⟩ := written_request hm hx hdnext
  obtain ⟨q, hq⟩ := List.mem_iff_getElem?.mp
    (mem_appendTargets (n := m) (by rw [hstand.peers]; exact hd) hdnone)
  have hmade := List.mem_of_getElem? (writeCalls_append (a := a) hq)
  rw [hdreq] at hmade
  exact hcalls _ hmade

theorem run_replicated (run : ClusterRun c ok es s) (hok : AllowsPlain ok) (ha : a ∈ c.members)
    (hb : b ∈ c.peers a) (hsmall : (c.peers a).length ≤ 2)
    (hupx : s.processes a = .running x) (hupy : s.processes b = .running y)
    (h : InStep c a b v t (k + 2) since x y) (hlow : since < 100)
    (hsnap : since + 1 < 100 ∨ ok = anything) (hbound : t < 2 ^ 64)
    (hfit : FitsSegment data) (hlast : v.lastIndex + 1 < 2 ^ 64) :
    ∃ s' x' y', ClusterRun c ok (es ++ [.acknowledged a (v.lastIndex + 1) t data]) s' ∧
      Between a b s s' ∧ s'.processes a = .running x' ∧ s'.processes b = .running y' ∧
      Advanced c a v t k since data x x' ∧
      x'.nextIndex = Function.update x.nextIndex b (some (v.lastIndex + 2)) ∧
      Standing c b (v.push t data) t k y' ∧ y'.role = .follower ∧
      ∀ d ∈ c.peers a, x.nextIndex d = some (v.lastIndex + 1) →
        ⟨a, d, .appendEntries (nextRequest a v t data x.commitIndex)⟩ ∈ s'.calls := by
  obtain ⟨s', x', y', k, hrest⟩ :=
    steps_replicated hok ha hb hsmall hupx hupy h hlow hsnap hbound hfit hlast
  exact ⟨s', x', y', run_steps run (labelled_steps k), hrest⟩

/-- A write of which every call is lost stays in the log. -/
theorem run_lost (run : ClusterRun c anything es s) (ha : a ∈ c.members)
    (hmany : 1 ≤ (c.peers a).length) (hup : s.processes a = .running x)
    (hx : Standing c a v t (k + 1) x) (hrole : x.role = .leader) (hfit : FitsSegment data)
    (hlast : v.lastIndex + 1 < 2 ^ 64) (hbound : t < 2 ^ 64) :
    ∃ s' x', ClusterRun c anything es s' ∧ (∀ i, i ≠ a → s'.processes i = s.processes i) ∧
      s'.processes a = .running x' ∧ Standing c a (v.push t data) t k x' := by
  obtain ⟨m, run₁, hm⟩ := run_writing run anything_allowsPlain ha hup hx hrole hfit hlast hbound
  have hstand := written_standing hm hx
  set s₁ := State.after s a m _ with hs₁
  have hwait : s₁.processes a =
      .waiting m (.write (v.lastIndex + 1) data s.calls.length) := by
    rw [hs₁, State.after_self]
    rfl
  set appends : List (NodeId × Option AppendEntriesResponse) :=
    silent ((m.appendCalls (v.lastIndex + 1)).map Prod.fst) with happends
  set snapshots : List (NodeId × Option InstallSnapshotResponse) :=
    silent ((m.snapshotCalls (v.lastIndex + 1)).map Prod.fst) with hsnapshots
  have hanswered : Answered s₁ s.calls.length (appends.map (fun p => p.2.map .appendEntries) ++
      snapshots.map (fun p => p.2.map .installSnapshot)) :=
    answered_append (answered_silent (map_silent _ _)) (answered_silent (map_silent _ _))
  have hfew : 1 < m.begin.quorum := by
    show 1 < (m.peers.length + 1) / 2 + 1
    rw [hstand.peers]
    omega
  have hfinish : m.begin.finishWrite (v.lastIndex + 1) appends snapshots =
      (.error .quorumNotReached, m.begin) := by
    rw [Node.finishWrite, Node.finishReplication, happends, countAppends_silent]
    dsimp only
    rw [hsnapshots, countSnapshots_silent, Node.commitWrite]
    exact if_pos hfew
  have hact : m.act (.finishWrite (v.lastIndex + 1) appends snapshots) = m.begin :=
    congrArg Prod.snd hfinish
  have hb : Bounded m (.finishWrite (v.lastIndex + 1) appends snapshots) := by
    rw [Bounded, hact]
    show m.ps.currentTerm < 2 ^ 64
    rw [hstand.term]
    exact hbound
  have run₂ := run₁.step (.act ha (.finishWrite hwait (silent_targets _) (silent_targets _)
    hanswered) hb trivial)
  rw [hfinish, hact] at run₂
  simp only [Option.toList_none, List.append_nil] at run₂
  refine ⟨_, m.begin, run₂, ?_, ?_, ⟨⟨hstand.healthy, hstand.config, hstand.room⟩, hstand.self,
    hstand.peers, hstand.term, hstand.view⟩⟩
  · intro i hi
    rw [State.after_of_ne _ _ _ hi, hs₁, State.after_of_ne _ _ _ hi]
  · rw [State.after_self]
    rfl

/-- The winner of an election whose voter has the same log. -/
theorem inStep_of_elected (hx : Standing c a v t k m) (hy : Standing c b v t k y)
    (h : Elected x m) (hb : b ∈ c.peers a) (hself : x.peers = c.peers a)
    (hview : x.log.toLogView = v) (htrigger : x.snapshotTrigger = 100)
    (hsince : x.entriesSinceSnapshot = 0) (hrole : y.role = .follower) :
    InStep c a b v t k 0 m y := by
  refine ⟨hx, hy, ⟨h.role, h.untouched.snapshotTrigger.trans htrigger,
    h.untouched.entriesSinceSnapshot.trans hsince⟩, ?_, hrole⟩
  rw [h.next b (by rw [hself]; exact hb), hview]

/-- Writes below the snapshot trigger. -/
theorem run_many (run : ClusterRun c ok es s) (hok : AllowsPlain ok) (ha : a ∈ c.members)
    (hb : b ∈ c.peers a) (hsmall : (c.peers a).length ≤ 2)
    (hupx : s.processes a = .running x) (hupy : s.processes b = .running y) (i : ℕ)
    (h : InStep c a b v 1 (k + 2 * i) since x y) (hi : since + i < 100) (hfit : FitsSegment data)
    (hlast : v.lastIndex + i < 2 ^ 64) :
    ∃ s' x' y', ClusterRun c ok (es ++ acknowledgements a v.lastIndex data i) s' ∧
      Between a b s s' ∧ s'.processes a = .running x' ∧ s'.processes b = .running y' ∧
      InStep c a b (grow v data i) 1 k (since + i) x' y' ∧
      ∀ d, d ≠ b → x'.nextIndex d = x.nextIndex d := by
  induction i generalizing k with
  | zero =>
    refine ⟨s, x, y, ?_, .refl, hupx, hupy, h, fun _ _ => rfl⟩
    rw [acknowledgements, List.range_zero, List.map_nil, List.append_nil]
    exact run
  | succ i ih =>
    have hstart : InStep c a b v 1 (k + 2 + 2 * i) since x y := by
      rw [show k + 2 + 2 * i = k + 2 * (i + 1) by omega]
      exact h
    obtain ⟨s₁, x₁, y₁, run₁, hbetween, hupx₁, hupy₁, h₁, hsame⟩ :=
      ih hstart (by omega) (by omega)
    have hindex : (grow v data i).lastIndex = v.lastIndex + i := grow_lastIndex v data i
    obtain ⟨s₂, x₂, y₂, run₂, hbetween', hupx₂, hupy₂, hadvanced, hnext, hy₂, hfollows, _⟩ :=
      run_replicated run₁ hok ha hb hsmall hupx₁ hupy₁ h₁ (by omega) (Or.inl (by omega))
        (by decide) hfit (by rw [hindex]; exact hlast)
    obtain ⟨hx₂, hcount, _⟩ := hadvanced.stays hi
    rw [List.append_assoc, hindex, ← acknowledgements_succ] at run₂
    refine ⟨s₂, x₂, y₂, run₂, hbetween.trans hbetween', hupx₂, hupy₂,
      ⟨hx₂, hy₂, hcount, ?_, hfollows⟩, ?_⟩
    · rw [hnext, Function.update_self, grow, LogView.push_lastIndex]
    · intro d hd
      rw [hnext, Function.update_of_ne hd]
      exact hsame d hd

/-- `w` is `v` with `i` more entries, the last one of term 1. -/
structure Longer (v w : LogView) (i : ℕ) : Prop where
  point : w.snapshotIndex = v.snapshotIndex
  last : w.lastIndex = v.lastIndex + i
  term : w.lastTerm = 1

omit [Crc32] in
theorem grow_longer (v : LogView) (data : Bytes) (i : ℕ) :
    Longer v (grow v data (i + 1)) (i + 1) := by
  refine ⟨?_, grow_lastIndex v data (i + 1), ?_⟩
  · induction i with
    | zero => rfl
    | succ i ih => exact ih
  · simp [grow, LogView.push, LogView.lastTerm]

/-- The writes up to the snapshot trigger, of which a third member has got none. -/
theorem run_snapshotted (run : ClusterRun c anything es s) (ha : a ∈ c.members)
    (hb : b ∈ c.peers a) (hsmall : (c.peers a).length ≤ 2)
    (hupx : s.processes a = .running x) (hupy : s.processes b = .running y)
    (h : InStep c a b v 1 (k + 200) 0 x y) (hfit : FitsSegment data)
    (hlast : v.lastIndex + 100 < 2 ^ 64) :
    ∃ more s' x' y' w snap, ClusterRun c anything (es ++ more) s' ∧ Between a b s s' ∧
      s'.processes a = .running x' ∧ s'.processes b = .running y' ∧
      Standing c a ⟨[], v.lastIndex + 100, 1⟩ 1 k x' ∧ Counting x' 0 ∧
      x'.snapshot = some snap ∧ snap.lastIncludedIndex = v.lastIndex + 100 ∧
      snap.lastIncludedTerm = 1 ∧ Longer v w 100 ∧ Standing c b w 1 k y' ∧
      y'.role = .follower ∧ (∀ d, d ≠ b → x'.nextIndex d = x.nextIndex d) ∧
      ∀ d ∈ c.peers a, x.nextIndex d = some (v.lastIndex + 1) →
        ⟨a, d, .appendEntries (nextRequest a v 1 data x.commitIndex)⟩ ∈ s'.calls := by
  have hfirst : InStep c a b v 1 (k + 2 + 2 * 98 + 2) 0 x y := h
  obtain ⟨s₁, x₁, y₁, run₁, hbetween₁, hupx₁, hupy₁, hadvanced₁, hnext₁, hy₁, hfollows₁, hcalls⟩ :=
    run_replicated run anything_allowsPlain ha hb hsmall hupx hupy hfirst (by decide)
      (Or.inr rfl) (by decide) hfit (by omega)
  obtain ⟨hx₁, hcount₁, _⟩ := hadvanced₁.stays (by decide)
  have h₁ : InStep c a b (v.push 1 data) 1 (k + 2 + 2 * 98) 1 x₁ y₁ := by
    refine ⟨hx₁, hy₁, hcount₁, ?_, hfollows₁⟩
    rw [hnext₁, Function.update_self, LogView.push_lastIndex]
  obtain ⟨s₂, x₂, y₂, run₂, hbetween₂, hupx₂, hupy₂, h₂, hsame₂⟩ :=
    run_many run₁ anything_allowsPlain ha hb hsmall hupx₁ hupy₁ 98 h₁ (by decide) hfit
      (by rw [LogView.push_lastIndex]; omega)
  have hindex : (grow (v.push 1 data) data 98).lastIndex + 1 = v.lastIndex + 100 := by
    rw [grow_lastIndex, LogView.push_lastIndex]
  obtain ⟨s₃, x₃, y₃, run₃, hbetween₃, hupx₃, hupy₃, hadvanced₃, hnext₃, hy₃, hfollows₃, _⟩ :=
    run_replicated run₂ anything_allowsPlain ha hb hsmall hupx₂ hupy₂ h₂ (by decide)
      (Or.inr rfl) (by decide) hfit
      (by rw [hindex]; exact hlast)
  obtain ⟨hx₃, hcount₃, hsnap⟩ := hadvanced₃.moves rfl
  rw [hindex] at hx₃ hsnap
  rw [List.append_assoc, List.append_assoc] at run₃
  have hlonger := grow_longer (v.push 1 data) data 98
  refine ⟨_, s₃, x₃, y₃, _, _, run₃, (hbetween₁.trans hbetween₂).trans hbetween₃, hupx₃, hupy₃,
    hx₃, hcount₃, hsnap, rfl, rfl, ⟨hlonger.point, ?_, hlonger.term⟩, hy₃, hfollows₃, ?_, ?_⟩
  · exact hlonger.last.trans (by rw [LogView.push_lastIndex])
  · intro d hd
    rw [hnext₃, Function.update_of_ne hd, hsame₂ d hd, hnext₁, Function.update_of_ne hd]
  · intro d hd hdnext
    exact hbetween₃.calls _ (hbetween₂.calls _ (hcalls d hd hdnext))

/-- A peer takes a snapshot. -/
theorem run_install (run : ClusterRun c ok es s) (hb : b ∈ c.members)
    (hup : s.processes b = .running y) (hy : Standing c b w u (k + 1) y) {q : ℕ}
    {req : InstallSnapshotRequest} (hcall : s.calls[q]? = some ⟨a, b, .installSnapshot req⟩)
    (hterm : u ≤ req.term) (hbound : req.term < 2 ^ 64)
    (hnew : w.snapshotIndex < req.lastIncludedIndex)
    (hallowed : ok.action y (.installSnapshot req)) :
    ∃ y', ClusterRun c ok es
        (s.after b y' ⟨none, [], [(q, .installSnapshot ⟨req.term, true⟩)], none⟩) ∧
      Standing c b (w.replaySnapshot req.lastIncludedIndex req.lastIncludedTerm) req.term k y' ∧
      y'.role = .follower := by
  have hroom := hy.room
  have hcur : y.begin.ps.currentTerm ≤ req.term := by
    show y.ps.currentTerm ≤ req.term
    rw [hy.term]
    exact hterm
  have hnew' : y.begin.log.snapshotIndex < req.lastIncludedIndex := by
    show y.log.snapshotIndex < _
    rw [hy.view]
    exact hnew
  have hspare : Spare y.begin (k + 1) := ⟨hy.healthy, hy.config, hy.room⟩
  have htakes : Takes y.begin (List.replicate k ⟨0, 0, []⟩) := by
    apply hspare.takes
    · rw [List.length_replicate]
      exact Nat.le_succ k
    · intro e he
      obtain rfl := List.eq_of_mem_replicate he
      rw [FitsSegment]
      decide
  obtain ⟨c₀, hc₀⟩ := hy.healthy
  obtain ⟨log', hinstall, hview, hhealthy, hcfg, hseq⟩ :=
    installSnapshot_spec (t := req.lastIncludedTerm) hc₀ (by omega)
      (by rw [hy.config]; decide) hnew'
  obtain ⟨hresp, hps, hlog, _⟩ := onInstallSnapshot_ok hcur hnew' hinstall
  have hps : (y.act (.installSnapshot req)).ps.currentTerm = req.term := hps
  have hlog : (y.act (.installSnapshot req)).log = log' := hlog
  have hrole : (y.act (.installSnapshot req)).role = .follower := by
    show (y.begin.onInstallSnapshot req).2.role = .follower
    rw [onInstallSnapshot_role, if_neg (Nat.not_lt.mpr hcur)]
  have hself := act_identity y (.installSnapshot req)
  have hb' : Bounded y (.installSnapshot req) := by
    rw [Bounded, hps]
    exact hbound
  have run' := run.step (.act hb (.installSnapshot hup hcall) hb' hallowed)
  rw [hresp, Option.toList_none, List.append_nil] at run'
  refine ⟨_, run', ⟨⟨?_, ?_, ?_⟩, hself.1.trans hy.self, hself.2.trans hy.peers, hps, ?_⟩, hrole⟩
  · rw [hlog]
    exact ⟨_, hhealthy⟩
  · rw [hlog]
    exact hcfg.trans hy.config
  · rw [hlog, hseq]
    omega
  · rw [hlog, hview, hy.view]

omit [Crc32] in
theorem snapshotCalls_peers (n : Node) (index : ℕ) :
    ((n.snapshotCalls index).map Prod.fst).Sublist n.peers := by
  rw [Node.snapshotCalls]
  induction n.peers with
  | nil => exact List.Sublist.slnil
  | cons p peers ih =>
    rw [List.filterMap_cons]
    cases n.snapshotFor p index with
    | none => exact ih.cons p
    | some req => exact ih.cons_cons p

omit [Crc32] in
theorem writeCalls_snapshot {index i : ℕ} {req : InstallSnapshotRequest}
    (hreq : n.snapshotFor b index = some req)
    (hi : ((n.snapshotCalls index).map Prod.fst)[i]? = some b) :
    (writeCalls a n index)[(n.appendCalls index).length + i]? =
      some ⟨a, b, .installSnapshot req⟩ := by
  rw [List.getElem?_map] at hi
  obtain ⟨⟨p, req'⟩, hcall, rfl⟩ := Option.map_eq_some_iff.mp hi
  obtain ⟨p', _, hp'⟩ := List.mem_filterMap.mp (List.mem_of_getElem? hcall)
  obtain ⟨req'', hreq'', heq⟩ := Option.map_eq_some_iff.mp hp'
  obtain ⟨rfl, rfl⟩ := Prod.mk.inj heq
  rw [hreq''] at hreq
  cases hreq
  rw [writeCalls, List.getElem?_append_right (by rw [List.length_map]; exact Nat.le_add_right _ _),
    List.length_map, Nat.add_sub_cancel_left, List.getElem?_map, hcall]
  rfl

/-- A write that a lagging peer answers with the installation of a snapshot is acknowledged
as well. -/
theorem run_installed (run : ClusterRun c anything es s) (ha : a ∈ c.members)
    (hb : b ∈ c.peers a) (hsmall : (c.peers a).length ≤ 2)
    (hupx : s.processes a = .running x) (hupy : s.processes b = .running y)
    (hx : Standing c a v t (k + 1) x) (hy : Standing c b w u (k + 1) y)
    (hcount : Counting x since) (hlow : since < 100) {snap : Snapshot} {next : ℕ}
    (hsnap : x.snapshot = some snap) (hnext : x.nextIndex b = some next)
    (hlag : next ≤ v.snapshotIndex) (hnew : w.snapshotIndex < snap.lastIncludedIndex)
    (hterm : u ≤ t) (hbound : t < 2 ^ 64) (hfit : FitsSegment data)
    (hlast : v.lastIndex + 1 < 2 ^ 64) :
    ∃ s' x' y', ClusterRun c anything (es ++ [.acknowledged a (v.lastIndex + 1) t data]) s' ∧
      Between a b s s' ∧ s'.processes a = .running x' ∧ s'.processes b = .running y' ∧
      Advanced c a v t k since data x x' ∧
      Standing c b (w.replaySnapshot snap.lastIncludedIndex snap.lastIncludedTerm) t k y' ∧
      y'.role = .follower := by
  obtain ⟨hbmem, hne⟩ := (c.mem_peers a ha b).mp hb
  obtain ⟨m, run₁, hm⟩ :=
    run_writing run anything_allowsPlain ha hupx hx hcount.role hfit hlast hbound
  have hstand := written_standing hm hx
  set s₁ := State.after s a m _ with hs₁
  set req : InstallSnapshotRequest :=
    ⟨t, a, snap.lastIncludedIndex, snap.lastIncludedTerm, snap.data⟩ with hreq
  have hinstall : m.snapshotFor b (v.lastIndex + 1) = some req := by
    obtain ⟨log, trail, hnode⟩ := hm.node
    have hmnext : m.nextIndex b = some next := by
      rw [hnode]
      exact hnext
    have hmsnap : m.snapshot = some snap := by
      rw [hnode]
      exact hsnap
    have hlag' : next ≤ (v.push t data).snapshotIndex := hlag
    rw [Node.snapshotFor, hmnext, Option.getD_some, hstand.view, if_pos hlag', hmsnap, hstand.term,
      hstand.self]
    rfl
  have hpeer : b ∈ m.peers := by
    rw [hstand.peers]
    exact hb
  have htarget : b ∈ (m.snapshotCalls (v.lastIndex + 1)).map Prod.fst :=
    List.mem_map.mpr ⟨_, List.mem_filterMap.mpr ⟨b, hpeer, by rw [hinstall]; rfl⟩, rfl⟩
  obtain ⟨i, hi⟩ := List.mem_iff_getElem?.mp htarget
  set first := s.calls.length + (m.appendCalls (v.lastIndex + 1)).length with hfirst
  have hcall : s₁.calls[first + i]? = some ⟨a, b, .installSnapshot req⟩ := by
    rw [hs₁, State.after_calls, List.getElem?_append_right (by omega),
      show first + i - s.calls.length = (m.appendCalls (v.lastIndex + 1)).length + i by omega]
    exact writeCalls_snapshot hinstall hi
  have hupy₁ : s₁.processes b = .running y := by
    rw [hs₁, State.after_of_ne _ _ _ hne]
    exact hupy
  obtain ⟨y', run₂, hy', hfollower⟩ :=
    run_install run₁ hbmem hupy₁ hy hcall hterm hbound hnew trivial
  set s₂ := State.after s₁ b y' _ with hs₂
  set appendTargets := (m.appendCalls (v.lastIndex + 1)).map Prod.fst with htargets
  set snapshotTargets := (m.snapshotCalls (v.lastIndex + 1)).map Prod.fst with hsnapTargets
  have hnodup : snapshotTargets.Nodup := by
    apply (snapshotCalls_peers m (v.lastIndex + 1)).nodup
    rw [hstand.peers]
    exact c.peers_nodup a ha
  have hanswered : Answered s₂ s.calls.length
      ((silent appendTargets).map (fun p => p.2.map .appendEntries) ++
        (onlyFrom b (⟨t, true⟩ : InstallSnapshotResponse) snapshotTargets).map
          (fun p => p.2.map .installSnapshot)) := by
    apply answered_append (answered_silent (map_silent _ _))
    rw [List.length_map, silent, List.length_map, htargets, List.length_map]
    apply answered_onlyFrom hnodup hi
    exact List.mem_append_right _ (List.mem_singleton_self _)
  have hcounted : m.begin.finishReplication (v.lastIndex + 1) (silent appendTargets)
      (onlyFrom b (⟨t, true⟩ : InstallSnapshotResponse) snapshotTargets) = (2, withProgress m.begin
        (Function.update m.nextIndex b (some (m.log.snapshotIndex + 1)))
        (Function.update m.matchIndex b (some m.log.snapshotIndex))) := by
    rw [Node.finishReplication, countAppends_silent]
    exact countSnapshots_onlyFrom (n := m.begin) hnodup (List.mem_of_getElem? hi)
      (Nat.le_of_eq hstand.term.symm) 1
  have hallowed : anything.action m (.finishWrite (v.lastIndex + 1) (silent appendTargets)
      (onlyFrom b (⟨t, true⟩ : InstallSnapshotResponse) snapshotTargets)) := trivial
  obtain ⟨s', z, hstep₃, hbetween, hupz, hupy', hadvanced, _⟩ :=
    step_answered ha hne hm hx hcount hsmall hlow hbound (silent_targets _)
      (onlyFrom_targets b _ _) hanswered hcounted hallowed
  exact ⟨s', z, y', run₂.step (Proposes.step hstep₃), hbetween, hupz, hupy', hadvanced, hy',
    hfollower⟩

/-- A member stops between two actions and starts again from its files. -/
theorem run_restarted {backed : Prop} (run : ClusterRun c (raftConditions backed False) es s)
    (ha : a ∈ c.members) (hup : s.processes a = .running x) (hx : Standing c a v t k x)
    (hbound : t < 2 ^ 64) :
    ∃ s₁ s₂ y, ClusterRun c (raftConditions backed False) es s₁ ∧
      s₁.processes a = .crashed x.image ∧
      ClusterRun c (raftConditions backed False) es s₂ ∧ s₂.processes a = .running y ∧
      Standing c a v t k y ∧ y.role = .follower ∧ ∀ i, i ≠ a → s₂.processes i = s.processes i := by
  obtain ⟨votes, hv⟩ := RaftElections.invariant_of_run run
  have hdurable := ((hv.processes a ha).node (congrArg Process.node hup)).remembers.durable
  have hb : Bounded x (.clientRead 1) := by
    show x.ps.currentTerm < 2 ^ 64
    rw [hx.term]
    exact hbound
  have hstop : Step c (raftConditions backed False) s none (s.set a (.crashed x.image)) :=
    .crash ha (.clientRead hup) hb ⟨trivial, trivial, False.elim⟩ (List.mem_singleton_self _)
  have run₁ := run.step hstop
  rw [Option.toList_none, List.append_nil] at run₁
  have hdown : (s.set a (.crashed x.image)).processes a = .crashed x.image := State.set_self ..
  -- the files
  obtain ⟨e, hhealthy⟩ := hx.healthy
  obtain ⟨log, hopen, _, hst, hcfg, hseq⟩ := open_log_spec hhealthy.stores
  rw [hx.config] at hopen hcfg
  have hview : log.toLogView = v := (files_reopen run₁ ha hdown log hopen).trans hx.view
  obtain ⟨y, hstart, hy⟩ := start_ok a (c.peers a) x.ps.file x.snapshotFile hopen
  have run₂ := run₁.step (.restart ha hdown trivial hstart)
  rw [Option.toList_none, List.append_nil] at run₂
  refine ⟨_, _, y, run₁, hdown, run₂, State.set_self .., ?_, hy.role, ?_⟩
  · have hcont := hhealthy.contiguous
    rw [show x.log.toLogView = v from hx.view] at hcont
    have hterm : y.ps.currentTerm = t := by
      rw [hy.ps, ← hx.term, ← hdurable, stored]
    refine ⟨⟨⟨e, ?_, ?_⟩, ?_, ?_⟩, hy.id, hy.peers, hterm, ?_⟩
    · rw [hy.log]
      exact hst
    · rw [hy.log, hview]
      exact hcont
    · rw [hy.log]
      exact hcfg
    · have hroom := hx.room
      rw [hy.log]
      omega
    · rw [hy.log]
      exact hview
  · intro i hi
    rw [State.set_of_ne _ _ hi, State.set_of_ne _ _ hi]

end

/-- A cluster of three. -/
def trio : Cluster := Cluster.mesh ["n1", "n2", "n3"] (by decide) (by decide)

/-- "n1" leads in term 1 with the vote of "n2", which stores what it writes. -/
structure Led [Crc32] (s : State) (v : LogView) (k since : ℕ) (x y z : Node) : Prop where
  leader : s.processes "n1" = .running x
  voter : s.processes "n2" = .running y
  third : s.processes "n3" = .running z
  inStep : InStep trio "n1" "n2" v 1 k since x y
  waits : Standing trio "n3" LogView.empty 0 1000 z
  follows : z.role = .follower
  next : x.nextIndex "n3" = some 1
  commitIndex : x.commitIndex = v.lastIndex
  snapshot : x.snapshot = none

theorem run_led [Crc32] {ok : Conditions} (hok : AllowsPlain ok) :
    ∃ s x y z, ClusterRun trio ok [.elected "n1" 1] s ∧ Led s LogView.empty 1000 0 x y z := by
  obtain ⟨s₀, run₀, hfresh⟩ := run_fresh (k := 1000) trio ok (by decide)
  obtain ⟨x₀, hup₁, hx₀, hrole₁, htrigger, hsince, hsnap, hcommit⟩ := hfresh "n1" (by decide)
  obtain ⟨y₀, hup₂, hy₀, _⟩ := hfresh "n2" (by decide)
  obtain ⟨z, hup₃, hz, hrole₃, _⟩ := hfresh "n3" (by decide)
  obtain ⟨s, x, y, run, hbetween, hupx, hupy, hx, hy, helected, _, hfollows⟩ :=
    run_election (b := "n2") run₀ hok (by decide) (by decide) (by decide) hup₁ hup₂ hx₀ hy₀
      (by rw [hrole₁]; decide) le_rfl (by decide) (by decide) (Or.inr ⟨rfl, le_rfl⟩)
  have hnext : x.nextIndex "n3" = some 1 := by
    rw [helected.next "n3" (by rw [hx₀.peers]; decide), hx₀.view]
    rfl
  refine ⟨s, x, y, z, run, hupx, hupy, ?_, ?_, hz, hrole₃, hnext, ?_, ?_⟩
  · rw [hbetween.others "n3" (by decide) (by decide)]
    exact hup₃
  · exact inStep_of_elected hx hy helected (by decide) hx₀.peers hx₀.view htrigger hsince hfollows
  · rw [helected.untouched.commitIndex, hcommit]
    rfl
  · rw [helected.untouched.snapshot, hsnap]

/-- One more write that "n2" stores. -/
theorem Led.write [Crc32] {ok : Conditions} (hok : AllowsPlain ok) {es : List Event} {s : State}
    {v : LogView} {k since : ℕ} {x y z : Node} (run : ClusterRun trio ok es s)
    (h : Led s v (k + 2) since x y z) (hlow : since + 1 < 100) (hlast : v.lastIndex + 1 < 2 ^ 64)
    (b : UInt8) :
    ∃ s' x' y', ClusterRun trio ok (es ++ [.acknowledged "n1" (v.lastIndex + 1) 1 [b]]) s' ∧
      Led s' (v.push 1 [b]) k (since + 1) x' y' z := by
  obtain ⟨s', x, y, run', hbetween, hupx, hupy, hadvanced, hnext, hy, hfollows, _⟩ :=
    run_replicated run hok (by decide) (by decide) (by decide) h.leader h.voter h.inStep
      (by omega) (Or.inl hlow) (by decide : 1 < 2 ^ 64) (fitsSegment_byte b) hlast
  obtain ⟨hx, hcount, hsnap⟩ := hadvanced.stays hlow
  refine ⟨s', x, y, run', hupx, hupy, ?_, ⟨hx, hy, hcount, ?_, hfollows⟩, h.waits, h.follows, ?_,
    ?_, hsnap.trans h.snapshot⟩
  · rw [hbetween.others "n3" (by decide) (by decide)]
    exact h.third
  · rw [hnext, Function.update_self, LogView.push_lastIndex]
  · rw [hnext, Function.update_of_ne (by decide)]
    exact h.next
  · rw [hadvanced.commitIndex, LogView.push_lastIndex]

/-- A first write that "n2" stores. -/
theorem run_led_write [Crc32] {ok : Conditions} (hok : AllowsPlain ok) :
    ∃ s x y z, ClusterRun trio ok [.elected "n1" 1, .acknowledged "n1" 1 1 [7]] s ∧
      Led s (LogView.empty.push 1 [7]) 998 1 x y z := by
  obtain ⟨s₁, x₁, y₁, z, run₁, h⟩ := run_led hok
  obtain ⟨s, x, y, run, h'⟩ := Led.write hok run₁ h (by decide) (by decide) 7
  exact ⟨s, x, y, z, run, h'⟩

/-- What "n1" has acknowledged after a hundred writes that "n2" has stored, and one more for
which "n3" has taken the snapshot. The call for the first write is still on its way to "n3". -/
structure InstalledLast [Crc32] (es : List Event) (s : State) (x y z : Node) (w : LogView) :
    Prop where
  acked : Event.acknowledged "n1" 101 1 [8] ∈ es
  leader : s.processes "n1" = .running x
  second : s.processes "n2" = .running y
  third : s.processes "n3" = .running z
  log : Standing trio "n1" (LogView.push ⟨[], 100, 1⟩ 1 [8]) 1 10 x
  full : Standing trio "n2" w 1 10 y
  longer : Longer LogView.empty w 100
  follows : y.role = .follower
  installed : Standing trio "n3" ⟨[], 100, 1⟩ 1 10 z
  late : ⟨"n1", "n3", .appendEntries (nextRequest "n1" LogView.empty 1 [7] 0)⟩ ∈ s.calls

theorem run_installed_last [Crc32] :
    ∃ es s x y z w, ClusterRun trio anything es s ∧ InstalledLast es s x y z w := by
  obtain ⟨s₁, x₁, y₁, z₁, run₁, h⟩ := run_led anything_allowsPlain
  have hstart : InStep trio "n1" "n2" LogView.empty 1 (800 + 200) 0 x₁ y₁ := h.inStep
  obtain ⟨more, s₂, x₂, y₂, w, snap, run₂, hbetween, hupx, hupy, hx, hcount, hsnap, hindex, hterm,
    hlonger, hy, hfollows, hsame, hcalls⟩ :=
    run_snapshotted run₁ (by decide) (by decide) (by decide) h.leader h.voter hstart
      (fitsSegment_byte 7) (by decide)
  have hup₃ : s₂.processes "n3" = .running z₁ := by
    rw [hbetween.others "n3" (by decide) (by decide)]
    exact h.third
  have hnext : x₂.nextIndex "n3" = some 1 := by
    rw [hsame "n3" (by decide)]
    exact h.next
  have hlate := hcalls "n3" (by decide) h.next
  rw [h.commitIndex] at hlate
  have hx : Standing trio "n1" ⟨[], 100, 1⟩ 1 (10 + 1) x₂ :=
    ⟨hx.toSpare.of_le (by decide), hx.self, hx.peers, hx.term, hx.view⟩
  have hz : Standing trio "n3" LogView.empty 0 (10 + 1) z₁ :=
    ⟨h.waits.toSpare.of_le (by decide), h.waits.self, h.waits.peers, h.waits.term, h.waits.view⟩
  obtain ⟨s₃, x₃, z₃, run₃, hbetween', hupx₃, hupz₃, hadvanced, hz₃, _⟩ :=
    run_installed run₂ (by decide) (by decide) (by decide) hupx hup₃ hx hz hcount
      (by decide) hsnap hnext (by decide) (by rw [hindex]; decide) (by decide) (by decide)
      (fitsSegment_byte 8)
      (by decide)
  have hlast : LogView.lastIndex ⟨[], 100, 1⟩ + 1 = 101 := rfl
  rw [hindex, hterm] at hz₃
  refine ⟨_, s₃, x₃, y₂, z₃, w, run₃, ?_, hupx₃, ?_, hupz₃, (hadvanced.stays (by decide)).1, ?_,
    hlonger, hfollows, hz₃, hbetween'.calls _ hlate⟩
  · exact List.mem_append_right _ (List.mem_singleton_self _)
  · rw [hbetween'.others "n2" (by decide) (by decide)]
    exact hupy
  · exact ⟨hy.toSpare.of_le (by decide), hy.self, hy.peers, hy.term, hy.view⟩

end RaftClusterWrites
