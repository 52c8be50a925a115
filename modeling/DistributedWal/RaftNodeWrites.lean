import DistributedWal.RaftNodeJournal

/-! # Elections won and writes taken

How a node comes to lead and what a write leaves when the WAL takes its record: the parts
that concrete lives are put together from.
-/
namespace RaftNodeWrites

open LittleEndianCodec WalSegment WalEngine WalContents ReplicatedLog ReplicatedLogContents
open WalEntry (Crc32 ieee WalError)
open RaftPersistentState RaftSnapshot RaftNode RaftNodeFrame RaftNodeHandlers RaftNodeLogs
open RaftNodeVotes RaftNodeAppends RaftNodeMoves RaftNodeLife RaftCluster
open RaftNodeJournal (Room)

/-- What a node does by itself or for a client. -/
def Own : Action → Prop
  | .requestVote _ => False
  | .appendEntries _ => False
  | .installSnapshot _ => False
  | _ => True

/-- The conditions allow these actions while the log satisfies `P`. -/
def AllowsOwn (ok : Conditions) (P : LogView → Prop) : Prop :=
  ∀ n a, Own a → Room n a → P n.log.toLogView → ok.action n a

theorem anything_allows : AllowsOwn anything (fun _ => True) := fun _ _ _ _ _ => trivial

/-- `m` leads in the term after the one of `n`, with the log of `n`. -/
structure Elected (n m : Node) : Prop where
  role : m.role = .leader
  term : m.ps.currentTerm = n.ps.currentTerm + 1
  peers : m.peers = n.peers
  next : ∀ p ∈ n.peers, m.nextIndex p = some (n.log.lastIndex + 1)
  untouched : Untouched n m

/-- A node that has just started has not counted entries yet. -/
theorem start_counters [Crc32] {id : NodeId} {peers : List NodeId} {stateFile : Option Bytes}
    {wal : Dir} {snapshotFile : Option Bytes} {n : Node}
    (h : Node.start id peers stateFile wal snapshotFile = .ok n) :
    n.snapshotTrigger = 100 ∧ n.entriesSinceSnapshot = 0 := by
  rw [Node.start] at h
  split at h
  · cases h
  · cases h
    exact ⟨rfl, rfl⟩

/-- The only peer gets the entries from its next index on. -/
theorem appendCalls_single {n : Node} {p : NodeId} (hpeers : n.peers = [p]) {next : ℕ}
    (hnext : n.nextIndex p = some next)
    (hlag : n.log.snapshotIndex < next ∨ n.snapshot = none) (upTo : ℕ) :
    n.appendCalls upTo = [(p, n.buildAppendEntriesFor p upTo)] ∧ n.snapshotCalls upTo = [] := by
  have hnone : n.snapshotFor p upTo = none := by
    rw [Node.snapshotFor, hnext, Option.getD_some]
    rcases hlag with hlow | hsnap
    · rw [if_neg (Nat.not_le.mpr hlow)]
    · rw [hsnap]
      exact ite_self _
  constructor
  · simp [Node.appendCalls, hpeers, hnone]
  · simp [Node.snapshotCalls, hpeers, hnone]

theorem termAt_push_last (v : LogView) (t : ℕ) (data : Bytes) :
    (v.push t data).termAt (v.lastIndex + 1) = some t := by
  have hindex : v.lastIndex + 1 - v.snapshotIndex - 1 = v.entries.length := by
    rw [LogView.lastIndex]
    omega
  have hlow : (v.push t data).snapshotIndex < v.lastIndex + 1 :=
    Nat.lt_succ_of_le (Nat.le_add_right _ _)
  rw [termAt_above hlow]
  show ((v.entries ++ [⟨t, v.lastIndex + 1, data⟩])[v.lastIndex + 1 - v.snapshotIndex - 1]?).map
    LogEntry.term = some t
  rw [hindex, List.getElem?_concat_length]
  rfl

/-- Everything that the log holds. -/
theorem entriesFrom_all {v : LogView} (h : v.Contiguous) :
    (v.entriesFrom (v.snapshotIndex + 1)).filter (fun e => e.index ≤ v.lastIndex) = v.entries := by
  have hall : v.entries.filter (fun e => e.index ≤ v.lastIndex) = v.entries := by
    rw [List.filter_eq_self]
    intro e he
    exact decide_eq_true (h.bounds he).2
  rw [LogView.entriesFrom, Nat.max_self]
  split
  · rename_i hout
    rw [LogView.lastIndex] at hout
    rw [List.filter_nil, List.length_eq_zero_iff.mp (by omega : v.entries.length = 0)]
  · rw [show v.snapshotIndex + 1 - v.snapshotIndex - 1 = 0 by omega, List.drop_zero]
    exact hall

/-- The log with the same entry appended `k` times in term 1. -/
def grow (v : LogView) (data : Bytes) : ℕ → LogView
  | 0 => v
  | k + 1 => (grow v data k).push 1 data

@[simp] theorem grow_lastIndex (v : LogView) (data : Bytes) (k : ℕ) :
    (grow v data k).lastIndex = v.lastIndex + k := by
  induction k with
  | zero => rfl
  | succ k ih => rw [grow, LogView.push_lastIndex, ih, Nat.add_assoc]

/-- What the clients see of these writes. -/
def acknowledgements (id : NodeId) (last : ℕ) (data : Bytes) (k : ℕ) : List Event :=
  (List.range k).map (fun i => .acknowledged id (last + i + 1) 1 data)

theorem acknowledgements_succ (id : NodeId) (last : ℕ) (data : Bytes) (k : ℕ) :
    acknowledgements id last data (k + 1) =
      acknowledgements id last data k ++ [.acknowledged id (last + k + 1) 1 data] := by
  simp [acknowledgements, List.range_succ]

section

variable [Crc32]

/-- A snapshot that the WAL takes the record of. -/
theorem takeSnapshot_ok {n : Node} {log' : RaftLog} (hpos : n.commitIndex ≠ 0)
    (hcompact : n.log.compact n.commitIndex
      ((n.log.termAt n.commitIndex).getD n.log.snapshotTerm) = (.ok (), log')) :
    n.takeSnapshot.2.log = log' ∧ n.takeSnapshot.2.commitIndex = n.commitIndex ∧
      n.takeSnapshot.2.entriesSinceSnapshot = 0 ∧
      n.takeSnapshot.2.snapshotTrigger = n.snapshotTrigger ∧
      n.takeSnapshot.2.snapshot = some ⟨n.commitIndex,
        (n.log.termAt n.commitIndex).getD n.log.snapshotTerm,
        encodeEntries ((n.log.entriesFrom (n.log.snapshotIndex + 1)).filter
          (fun e => e.index ≤ n.commitIndex))⟩ := by
  have hcompacted : ∀ s : Snapshot, (n.saveSnapshot s).log.compact n.commitIndex
      ((n.log.termAt n.commitIndex).getD n.log.snapshotTerm) = (.ok (), log') :=
    fun _ => hcompact
  refine ⟨?_, ?_, ?_, ?_, ?_⟩ <;>
    simp only [Node.takeSnapshot, if_neg hpos, Node.compactLog, hcompacted] <;> rfl

/-- `m` is `n` after a commit of its whole log `w` that triggered a snapshot. -/
structure Compacted (n m : Node) (w : LogView) (t : ℕ) : Prop where
  quiet : Quiet n m
  view : m.log.toLogView = ⟨[], w.lastIndex, t⟩
  healthy : ∃ c, Healthy m.log c
  config : m.log.wal.config = walConfig
  sequence : m.log.wal.nextSequence = n.log.wal.nextSequence + 1
  commitIndex : m.commitIndex = w.lastIndex
  since : m.entriesSinceSnapshot = 0
  trigger : m.snapshotTrigger = n.snapshotTrigger
  nextIndex : m.nextIndex = n.nextIndex
  snapshot : m.snapshot = some ⟨w.lastIndex, t, encodeEntries w.entries⟩

theorem commitWrite_counts {n : Node} {acks : ℕ} (index : ℕ) (hacks : n.quorum ≤ acks)
    (hlow : n.entriesSinceSnapshot + 1 < n.snapshotTrigger) :
    n.commitWrite index acks = (.ok index, { n with
      commitIndex := index, entriesSinceSnapshot := n.entriesSinceSnapshot + 1 }) := by
  rw [Node.commitWrite, if_neg (Nat.not_lt.mpr hacks)]
  dsimp only
  rw [if_neg (Nat.not_le.mpr hlow)]

theorem commitWrite_compacts {n : Node} {w : LogView} {acks t : ℕ} (hacks : n.quorum ≤ acks)
    (htrigger : n.snapshotTrigger ≤ n.entriesSinceSnapshot + 1) (hview : n.log.toLogView = w)
    (hlow : w.snapshotIndex < w.lastIndex) (hterm : w.termAt w.lastIndex = some t)
    (hhealthy : ∃ c, Healthy n.log c) (hcfg : n.log.wal.config = walConfig)
    (hseq : n.log.wal.nextSequence < 2 ^ 64) :
    (n.commitWrite w.lastIndex acks).1 = .ok w.lastIndex ∧
      Compacted n (n.commitWrite w.lastIndex acks).2 w t := by
  subst hview
  obtain ⟨c, hc⟩ := hhealthy
  obtain ⟨log', hcompact, hview', hhealthy', hcfg', hseq'⟩ := compact_spec hc (t := t) hseq
    (by rw [hcfg]; decide) hlow
  have hempty : log'.toLogView = ⟨[], n.log.lastIndex, t⟩ := by
    rw [hview', LogView.replaySnapshot, hc.contiguous.filter_above (Nat.le_of_lt hlow),
      List.drop_eq_nil_of_le]
    rw [LogView.lastIndex]
    omega
  have hlast : (n.log.termAt n.log.lastIndex).getD n.log.snapshotTerm = t := by
    rw [hterm]
    rfl
  set counted : Node := { n with
    commitIndex := n.log.lastIndex, entriesSinceSnapshot := n.entriesSinceSnapshot + 1 }
    with hcounted
  have hquiet : Quiet n counted :=
    ⟨rfl, rfl, rfl, rfl, [], by rw [List.append_nil], fun _ hi => absurd hi List.not_mem_nil⟩
  have hcompacted : counted.log.compact counted.commitIndex
      ((counted.log.termAt counted.commitIndex).getD counted.log.snapshotTerm) = (.ok (), log') := by
    rw [show (counted.log.termAt counted.commitIndex).getD counted.log.snapshotTerm = t from hlast]
    exact hcompact
  obtain ⟨hlog, hcommit, hsince, htrigger', hsnapshot⟩ :=
    takeSnapshot_ok (n := counted) (Nat.ne_of_gt (Nat.zero_lt_of_lt hlow)) hcompacted
  rw [Node.commitWrite, if_neg (Nat.not_lt.mpr hacks)]
  dsimp only
  rw [if_pos htrigger]
  refine ⟨rfl, hquiet.trans (takeSnapshot_quiet counted), ?_, ?_, ?_, ?_, hcommit, hsince,
    htrigger', (takeSnapshot_cases counted).2.1, ?_⟩
  · rw [hlog, hempty]
  · rw [hlog]
    exact ⟨_, hhealthy'⟩
  · rw [hlog]
    exact hcfg'.trans hcfg
  · rw [hlog]
    exact hseq'
  · rw [hsnapshot]
    show some (Snapshot.mk n.log.lastIndex ((n.log.termAt n.log.lastIndex).getD
      n.log.snapshotTerm) (encodeEntries ((n.log.entriesFrom (n.log.snapshotIndex + 1)).filter
        (fun e => e.index ≤ n.log.lastIndex)))) = _
    rw [hlast, entriesFrom_all hc.contiguous]

/-- A write whose record fits into a segment. -/
theorem startWrite_accepted {n : Node} {data : Bytes} (hrole : n.role = .leader)
    (hhealthy : ∃ c, Healthy n.log c) (hcfg : n.log.wal.config = walConfig)
    (hseq : n.log.wal.nextSequence < 2 ^ 64) (hfit : FitsSegment data) :
    ∃ log', n.act (.startWrite data) = (withLog n.begin log').mark ∧
      (n.begin.startWrite data).1 = .ok (n.log.lastIndex + 1) ∧
      (∃ c, Healthy log' c) ∧ log'.wal.config = walConfig ∧
      log'.toLogView = n.log.toLogView.push n.ps.currentTerm data ∧
      log'.wal.nextSequence = n.log.wal.nextSequence + 1 := by
  obtain ⟨c, hc⟩ := hhealthy
  have hlen : 17 + data.length < 2 ^ 32 := by
    have : WalEntry.headerSize + (17 + data.length) ≤ 64 * 1024 * 1024 := hfit
    omega
  obtain ⟨log', happ, hview, hhealthy', hcfg', hseq'⟩ :=
    append_spec hc n.ps.currentTerm data hseq hlen (by rw [hcfg]; exact hfit)
  have hlead : ¬ n.begin.role ≠ .leader := not_not.mpr hrole
  have happ' : n.begin.log.append n.begin.ps.currentTerm data = (.ok (n.log.lastIndex + 1), log') :=
    happ
  have hstart : n.begin.startWrite data =
      (.ok (n.log.lastIndex + 1), (withLog n.begin log').mark) := by
    rw [Node.startWrite, if_neg hlead, Node.appendLog]
    dsimp only
    rw [happ']
    rfl
  exact ⟨log', congrArg Prod.snd hstart, congrArg Prod.fst hstart, ⟨_, hhealthy'⟩,
    hcfg'.trans hcfg, hview, hseq'⟩

/-- An election in which enough peers grant their vote in the new term. -/
theorem life_elected {ok : LifeConditions} {id : NodeId} {peers : List NodeId} {n : Node}
    (life : NodeLife ok id peers (.up n .idle)) (hrole : n.role ≠ .leader)
    (hbound : n.ps.currentTerm + 1 < 2 ^ 64) {results : List (Option RequestVoteResponse)}
    (hterms : ∀ r, some r ∈ results → r.term ≤ n.ps.currentTerm + 1)
    (hquorum : n.quorum ≤ 1 +
      (results.filter (fun r => r.any RequestVoteResponse.voteGranted)).length)
    (hok : ok.action n .startElection)
    (hok' : ok.action (n.act .startElection) (.finishElection results)) :
    ∃ m, NodeLife ok id peers (.up m .idle) ∧ Elected n m := by
  have hterm : (n.act .startElection).ps.currentTerm = n.ps.currentTerm + 1 := rfl
  have hb : Bounded n .startElection := by
    rw [Bounded, hterm]
    exact hbound
  have life₁ := life.act (.startElection hrole) hb hok
  have hwon : (n.act .startElection).act (.finishElection results) =
      (n.act .startElection).begin.becomeLeader := by
    apply finishElection_won rfl hterms
    exact hquorum
  have hb₁ : Bounded (n.act .startElection) (.finishElection results) := by
    rw [Bounded, hwon]
    exact hbound
  have life₂ := life₁.act (.finishElection results) hb₁ hok'
  refine ⟨_, life₂, ?_⟩
  rw [hwon]
  have huntouched : Untouched n (n.act .startElection).begin.becomeLeader := by
    rw [← hwon]
    exact (act_untouched (by simp [TouchesLog])).trans (act_untouched (by simp [TouchesLog]))
  refine ⟨rfl, rfl, rfl, ?_, huntouched⟩
  intro p hp
  exact if_pos hp

/-- `m` is `n` with the new entry in its log, waiting for its peers. -/
structure Written (n m : Node) (data : Bytes) : Prop where
  node : ∃ log trail, m = { n with log := log, trail := trail }
  healthy : ∃ c, Healthy m.log c
  config : m.log.wal.config = walConfig
  view : m.log.toLogView = n.log.toLogView.push n.ps.currentTerm data
  sequence : m.log.wal.nextSequence = n.log.wal.nextSequence + 1

theorem life_writing {ok : LifeConditions} {id : NodeId} {peers : List NodeId} {n : Node}
    (life : NodeLife ok id peers (.up n .idle)) {data : Bytes} (hrole : n.role = .leader)
    (hhealthy : ∃ c, Healthy n.log c) (hcfg : n.log.wal.config = walConfig)
    (hseq : n.log.wal.nextSequence < 2 ^ 64) (hfit : FitsSegment data)
    (hbound : n.ps.currentTerm < 2 ^ 64) (hok : ok.action n (.startWrite data)) :
    ∃ m, NodeLife ok id peers (.up m (.writing (n.log.lastIndex + 1) data)) ∧
      Written n m data := by
  obtain ⟨log', hact, hresult, hhealthy', hcfg', hview, hseq'⟩ :=
    startWrite_accepted hrole hhealthy hcfg hseq hfit
  have hb : Bounded n (.startWrite data) := by
    rw [Bounded, hact]
    exact hbound
  have life' := life.act (.writeStarted hresult) hb hok
  rw [hact] at life'
  exact ⟨_, life', ⟨_, _, rfl⟩, hhealthy', hcfg', hview, hseq'⟩

/-- A node without peers that leads in term 1 and has committed all of its log. -/
structure Alone (n : Node) (v : LogView) (since bound : ℕ) : Prop where
  peers : n.peers = []
  role : n.role = .leader
  term : n.ps.currentTerm = 1
  view : n.log.toLogView = v
  commitIndex : n.commitIndex = v.lastIndex
  trigger : n.snapshotTrigger = 100
  since : n.entriesSinceSnapshot = since
  healthy : ∃ c, Healthy n.log c
  config : n.log.wal.config = walConfig
  sequence : n.log.wal.nextSequence ≤ bound

/-- The first half of its write. -/
structure AloneWriting (n : Node) (v : LogView) (data : Bytes) (since bound : ℕ) (m : Node) :
    Prop where
  act : n.act (.startWrite data) = m
  result : (n.begin.startWrite data).1 = .ok (v.lastIndex + 1)
  written : Written n m data
  calls : m.appendCalls (v.lastIndex + 1) = [] ∧ m.snapshotCalls (v.lastIndex + 1) = []
  term : m.ps.currentTerm = 1
  view : m.log.toLogView = v.push 1 data
  sequence : m.log.wal.nextSequence ≤ bound + 1

variable {n m : Node} {v : LogView} {since bound : ℕ} {data : Bytes} {P : LogView → Prop}

theorem Alone.startWrite (h : Alone n v since bound) (hfit : FitsSegment data)
    (hbound : bound < 2 ^ 64) : ∃ m, AloneWriting n v data since bound m := by
  have hseq := h.sequence
  obtain ⟨log', hact, hresult, hhealthy, hcfg, hview, hseq'⟩ :=
    startWrite_accepted h.role h.healthy h.config (by omega) hfit
  rw [h.view] at hresult
  have hpeers : ((withLog n.begin log').mark).peers = [] := h.peers
  refine ⟨_, hact, hresult, ⟨⟨_, _, rfl⟩, hhealthy, hcfg, hview, hseq'⟩, ⟨?_, ?_⟩, h.term, ?_, ?_⟩
  · simp [Node.appendCalls, hpeers]
  · simp [Node.snapshotCalls, hpeers]
  · rw [h.term, h.view] at hview
    exact hview
  · show log'.wal.nextSequence ≤ bound + 1
    omega

/-- One ack is enough. -/
theorem AloneWriting.commit (h : Alone n v since bound) (hm : AloneWriting n v data since bound m) :
    m.begin.finishWrite (v.lastIndex + 1) [] [] = m.begin.commitWrite (v.lastIndex + 1) 1 ∧
      ¬ 1 < m.begin.quorum := by
  obtain ⟨log, trail, hnode⟩ := hm.written.node
  refine ⟨rfl, ?_⟩
  show ¬ 1 < (m.peers.length + 1) / 2 + 1
  rw [hnode]
  dsimp only
  rw [h.peers]
  decide

/-- Below the trigger the entry is committed and stays in the log. -/
theorem AloneWriting.finishWrite (h : Alone n v since bound)
    (hm : AloneWriting n v data since bound m) (hsince : since + 1 < 100) :
    (m.begin.finishWrite (v.lastIndex + 1) [] []).1 = .ok (v.lastIndex + 1) ∧
      Alone (m.act (.finishWrite (v.lastIndex + 1) [] [])) (v.push 1 data) (since + 1)
        (bound + 1) ∧
      (m.act (.finishWrite (v.lastIndex + 1) [] [])).snapshot = n.snapshot := by
  obtain ⟨hcommit, hquorum⟩ := hm.commit h
  obtain ⟨log, trail, hnode⟩ := hm.written.node
  have htrigger : ¬ m.begin.entriesSinceSnapshot + 1 ≥ m.begin.snapshotTrigger := by
    show ¬ m.entriesSinceSnapshot + 1 ≥ m.snapshotTrigger
    rw [hnode]
    dsimp only
    rw [h.since, h.trigger]
    omega
  rw [Node.act, hcommit, Node.commitWrite, if_neg hquorum]
  dsimp only
  rw [if_neg htrigger]
  refine ⟨rfl, ⟨?_, ?_, hm.term, hm.view, ?_, ?_, ?_, hm.written.healthy, hm.written.config,
    hm.sequence⟩, ?_⟩
  · show m.peers = []
    rw [hnode]
    exact h.peers
  · show m.role = .leader
    rw [hnode]
    exact h.role
  · rw [LogView.push_lastIndex]
  · show m.snapshotTrigger = 100
    rw [hnode]
    exact h.trigger
  · show m.entriesSinceSnapshot + 1 = since + 1
    rw [hnode]
    exact congrArg (· + 1) h.since
  · show m.snapshot = n.snapshot
    rw [hnode]

/-- At the trigger everything goes into a snapshot. -/
theorem AloneWriting.takeSnapshot (h : Alone n v since bound)
    (hm : AloneWriting n v data since bound m) (hsince : since + 1 = 100)
    (hbound : bound + 1 < 2 ^ 64) :
    (m.begin.finishWrite (v.lastIndex + 1) [] []).1 = .ok (v.lastIndex + 1) ∧
      Alone (m.act (.finishWrite (v.lastIndex + 1) [] [])) ⟨[], v.lastIndex + 1, 1⟩ 0
        (bound + 2) ∧
      (m.act (.finishWrite (v.lastIndex + 1) [] [])).snapshot =
        some ⟨v.lastIndex + 1, 1, encodeEntries (v.push 1 data).entries⟩ := by
  obtain ⟨hcommit, hquorum⟩ := hm.commit h
  obtain ⟨log, trail, hnode⟩ := hm.written.node
  have htrigger : m.begin.snapshotTrigger ≤ m.begin.entriesSinceSnapshot + 1 := by
    show m.snapshotTrigger ≤ m.entriesSinceSnapshot + 1
    rw [hnode]
    dsimp only
    rw [h.since, h.trigger]
    omega
  have hseq : m.log.wal.nextSequence ≤ bound + 1 := hm.sequence
  have hlow : (v.push 1 data).snapshotIndex < (v.push 1 data).lastIndex := by
    rw [LogView.push_lastIndex]
    exact Nat.lt_succ_of_le (Nat.le_add_right _ _)
  have hterm : (v.push 1 data).termAt (v.push 1 data).lastIndex = some 1 := by
    rw [LogView.push_lastIndex, termAt_push_last]
  obtain ⟨hresult, hafter⟩ := commitWrite_compacts (n := m.begin) (Nat.not_lt.mp hquorum) htrigger
    hm.view hlow hterm hm.written.healthy hm.written.config (Nat.lt_of_le_of_lt hseq hbound)
  rw [LogView.push_lastIndex] at hresult hafter
  have hview := hafter.view
  have hkeep := hafter.commitIndex
  have hsnap := hafter.snapshot
  rw [LogView.push_lastIndex] at hview hkeep hsnap
  rw [Node.act, hcommit]
  refine ⟨hresult, ⟨?_, ?_, ?_, hview, hkeep, ?_, hafter.since, hafter.healthy, hafter.config, ?_⟩,
    hsnap⟩
  · rw [hafter.quiet.peers]
    show m.peers = []
    rw [hnode]
    exact h.peers
  · rw [hafter.quiet.role]
    show m.role = .leader
    rw [hnode]
    exact h.role
  · rw [hafter.quiet.ps]
    exact hm.term
  · rw [hafter.trigger]
    show m.snapshotTrigger = 100
    rw [hnode]
    exact h.trigger
  · rw [hafter.sequence]
    show m.log.wal.nextSequence + 1 ≤ bound + 2
    omega

/-- The outcome of a write of a node without peers. -/
structure AloneAfter (n : Node) (v : LogView) (data : Bytes) (since bound : ℕ) (m : Node) :
    Prop where
  stays : since + 1 < 100 →
    Alone m (v.push 1 data) (since + 1) (bound + 1) ∧ m.snapshot = n.snapshot
  moves : since + 1 = 100 → Alone m ⟨[], v.lastIndex + 1, 1⟩ 0 (bound + 2) ∧
    m.snapshot = some ⟨v.lastIndex + 1, 1, encodeEntries (v.push 1 data).entries⟩

theorem AloneWriting.after (h : Alone n v since bound) (hm : AloneWriting n v data since bound m)
    (hsince : since < 100) (hbound : bound + 1 < 2 ^ 64) :
    (m.begin.finishWrite (v.lastIndex + 1) [] []).1 = .ok (v.lastIndex + 1) ∧
      AloneAfter n v data since bound (m.act (.finishWrite (v.lastIndex + 1) [] [])) := by
  by_cases hlow : since + 1 < 100
  · obtain ⟨hresult, hafter⟩ := hm.finishWrite h hlow
    exact ⟨hresult, fun _ => hafter, fun heq => by omega⟩
  · obtain ⟨hresult, hafter⟩ := hm.takeSnapshot h (by omega) hbound
    exact ⟨hresult, fun hlt => absurd hlt hlow, fun _ => hafter⟩

theorem AloneAfter.term (h : AloneAfter n v data since bound m) (hsince : since < 100) :
    m.ps.currentTerm = 1 := by
  by_cases hlow : since + 1 < 100
  · exact (h.stays hlow).1.term
  · exact (h.moves (by omega)).1.term

/-- A write in the cluster. -/
theorem run_write {c : Cluster} {ok : Conditions} {es : List Event} {s : State} {id : NodeId}
    (run : ClusterRun c ok es s) (hid : id ∈ c.members) (hup : s.processes id = .running n)
    (h : Alone n v since bound) (hsince : since < 100) (hfit : FitsSegment data)
    (hbound : bound + 1 < 2 ^ 64) (hlast : v.lastIndex + 1 < 2 ^ 64) (hok : AllowsOwn ok P)
    (hbefore : P v) (hafter : P (v.push 1 data)) :
    ∃ s' m, ClusterRun c ok (es ++ [.acknowledged id (v.lastIndex + 1) 1 data]) s' ∧
      s'.processes id = .running m ∧ AloneAfter n v data since bound m := by
  obtain ⟨w, hw⟩ := h.startWrite hfit (by omega)
  obtain ⟨hresult, hnext⟩ := hw.after h hsince hbound
  have hb : Bounded n (.startWrite data) := by
    rw [Bounded, hw.act, hw.term]
    decide
  have hroom : Room n (.startWrite data) := by
    refine ⟨h.sequence.trans_lt (by omega), ?_⟩
    rw [h.view]
    exact hlast
  have run := run.step (.act hid (.writeStarted hup hw.result) hb
    (hok _ _ trivial hroom (h.view ▸ hbefore)))
  rw [hw.act] at run
  set s₁ := s.after id w _ with hs₁
  have hwait : s₁.processes id = .waiting w (.write (v.lastIndex + 1) data s.calls.length) := by
    rw [hs₁, State.after_self]
    rfl
  have hact : Act s₁ id w (.finishWrite (v.lastIndex + 1) [] []) _ :=
    .finishWrite hwait (by rw [hw.calls.1]; rfl) (by rw [hw.calls.2]; rfl) (by simp [Answered])
  have hb₁ : Bounded w (.finishWrite (v.lastIndex + 1) [] []) := by
    rw [Bounded, hnext.term hsince]
    decide
  have hroom₁ : Room w (.finishWrite (v.lastIndex + 1) [] []) :=
    ⟨hw.sequence.trans_lt hbound, hlast⟩
  have run := run.step (.act hid hact hb₁ (hok _ _ trivial hroom₁ (hw.view ▸ hafter)))
  rw [hresult, hw.term] at run
  simp only [Option.toList_none, Option.toList_some, List.append_nil] at run
  refine ⟨_, _, run, ?_, hnext⟩
  rw [State.after_self]
  rfl

/-- Writes up to the snapshot trigger. -/
theorem run_writes {c : Cluster} {ok : Conditions} {es : List Event} {s : State} {id : NodeId}
    (run : ClusterRun c ok es s) (hid : id ∈ c.members) (hup : s.processes id = .running n)
    (h : Alone n v 0 bound) (hfit : FitsSegment data) (hbound : bound + 101 < 2 ^ 64)
    (hlast : v.lastIndex + 100 < 2 ^ 64) (hok : AllowsOwn ok P)
    (hP : ∀ j ≤ 100, P (grow v data j)) (k : ℕ) (hk : k < 100) :
    ∃ s' m, ClusterRun c ok (es ++ acknowledgements id v.lastIndex data k) s' ∧
      s'.processes id = .running m ∧ Alone m (grow v data k) k (bound + k) ∧
      m.snapshot = n.snapshot := by
  induction k with
  | zero => exact ⟨s, n, by simpa [acknowledgements] using run, hup, h, rfl⟩
  | succ k ih =>
    obtain ⟨s', m, run', hup', hm, hsnap⟩ := ih (by omega)
    obtain ⟨s'', m', run'', hup'', hafter⟩ :=
      run_write run' hid hup' hm (by omega) hfit (by omega)
        (by rw [grow_lastIndex]; omega) hok (hP k (by omega)) (hP (k + 1) (by omega))
    obtain ⟨halone, hsnap'⟩ := hafter.stays hk
    rw [List.append_assoc, grow_lastIndex, ← acknowledgements_succ] at run''
    exact ⟨s'', m', run'', hup'', halone, hsnap'.trans hsnap⟩

/-- The write that triggers the snapshot. -/
theorem run_snapshot {c : Cluster} {ok : Conditions} {es : List Event} {s : State} {id : NodeId}
    (run : ClusterRun c ok es s) (hid : id ∈ c.members) (hup : s.processes id = .running n)
    (h : Alone n v 0 bound) (hfit : FitsSegment data) (hbound : bound + 101 < 2 ^ 64)
    (hlast : v.lastIndex + 100 < 2 ^ 64) (hok : AllowsOwn ok P)
    (hP : ∀ j ≤ 100, P (grow v data j)) :
    ∃ s' m, ClusterRun c ok (es ++ acknowledgements id v.lastIndex data 100) s' ∧
      s'.processes id = .running m ∧ Alone m ⟨[], v.lastIndex + 100, 1⟩ 0 (bound + 101) ∧
      m.snapshot = some ⟨v.lastIndex + 100, 1, encodeEntries (grow v data 100).entries⟩ := by
  obtain ⟨s', m, run', hup', hm, _⟩ := run_writes run hid hup h hfit hbound hlast hok
    hP 99 (by decide)
  obtain ⟨s'', m', run'', hup'', hafter⟩ :=
    run_write run' hid hup' hm (by decide) hfit (by omega)
      (by rw [grow_lastIndex]; omega) hok (hP 99 (by decide)) (hP 100 le_rfl)
  obtain ⟨halone, hsnap⟩ := hafter.moves rfl
  rw [List.append_assoc, grow_lastIndex, ← acknowledgements_succ] at run''
  rw [grow_lastIndex] at halone hsnap
  exact ⟨s'', m', run'', hup'', halone, hsnap⟩

/-- A cluster of one elects its member. -/
theorem run_elected_alone {ok : Conditions} (hok : AllowsOwn ok P) (hP : P LogView.empty) :
    ∃ (c : Cluster) (s : State) (n : Node), ClusterRun c ok [.elected "n1" 1] s ∧ c.members = ["n1"] ∧
      s.processes "n1" = .running n ∧ Alone n LogView.empty 0 1 ∧ n.snapshot = none := by
  obtain ⟨n, log, hstart, hn, hview, hhealthy, hcfg, hseq⟩ := start_fresh "n1" []
  have hterm : n.ps.currentTerm = 0 := by
    rw [hn.ps]
    rfl
  obtain ⟨htrigger, hsince⟩ := start_counters hstart
  let c := Cluster.mesh ["n1"] (by decide) (by decide)
  have hid : "n1" ∈ c.members := List.mem_singleton_self _
  have run : ClusterRun c ok [] ⟨fun _ => .running n, [], []⟩ := by
    apply ClusterRun.start
    refine ⟨?_, rfl, rfl⟩
    intro id hid
    obtain rfl := List.mem_singleton.mp hid
    exact ⟨n, hstart, rfl⟩
  have hempty : n.log.toLogView = LogView.empty := by rw [hn.log, hview]
  have hterm₁ : (n.act .startElection).ps.currentTerm = 1 := by
    show n.ps.currentTerm + 1 = 1
    rw [hterm]
  have hb : Bounded n .startElection := by
    rw [Bounded, hterm₁]
    decide
  have run := run.step (.act hid (.startElection rfl (by rw [hn.role]; decide)) hb
    (hok _ _ trivial trivial (hempty ▸ hP)))
  set w := n.act .startElection with hw
  have hpeers : w.peers = [] := (act_identity n _).2.trans hn.peers
  set s := State.after _ "n1" w _ with hs
  have hwait : s.processes "n1" = .waiting w (.election 0) := by
    rw [hs, State.after_self]
    rfl
  have hwon' : w.begin.finishElection [] = w.begin.becomeLeader := by
    apply finishElection_won rfl (by simp)
    rw [Node.quorum, Node.clusterSize, show w.begin.peers = [] from hpeers]
    decide
  have hwon : w.act (.finishElection []) = w.begin.becomeLeader := hwon'
  have hb₁ : Bounded w (.finishElection []) := by
    rw [Bounded, hwon]
    show w.ps.currentTerm < 2 ^ 64
    rw [hterm₁]
    decide
  have run := run.step (.act hid (.finishElection hwait (by simp [hpeers]) (by simp [Answered]))
    hb₁ (hok _ _ trivial trivial (hempty ▸ hP)))
  have hevent : (if (w.begin.finishElection []).role = .leader then
      some (Event.elected "n1" (w.begin.finishElection []).ps.currentTerm) else none) =
      some (Event.elected "n1" 1) := by
    rw [hwon', ← hterm₁]
    exact if_pos rfl
  rw [hevent, hwon] at run
  have huntouched : Untouched n w.begin.becomeLeader := by
    rw [← hwon]
    exact (act_untouched (by simp [TouchesLog])).trans (act_untouched (by simp [TouchesLog]))
  refine ⟨c, _, w.begin.becomeLeader, run, rfl, ?_, ⟨hpeers, rfl, hterm₁, ?_, ?_, ?_, ?_, ?_, ?_,
    ?_⟩, ?_⟩
  · rw [State.after_self]
    rfl
  · rw [huntouched.log, hn.log, hview]
  · rw [huntouched.commitIndex, hn.commitIndex]
    rfl
  · rw [huntouched.snapshotTrigger, htrigger]
  · rw [huntouched.entriesSinceSnapshot, hsince]
  · rw [huntouched.log, hn.log]
    exact ⟨_, hhealthy⟩
  · rw [huntouched.log, hn.log]
    exact hcfg
  · rw [huntouched.log, hn.log, hseq]
  · rw [huntouched.snapshot, hn.snapshot]
    rfl

end

end RaftNodeWrites
