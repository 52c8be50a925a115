import Mathlib.Data.List.ReduceOption
import DistributedWal.LabelledRuns
import DistributedWal.RaftClusterLogs

/-! # The runs of a cluster

The rest of the steps: the end of a write, heartbeats, reads, crashes and restarts. With
them every state of a run has a history that explains it.
-/
namespace RaftClusterRuns

open LittleEndianCodec WalSegment WalEngine WalContents ReplicatedLog ReplicatedLogContents
open WalEntry (Crc32 ieee WalError)
open RaftPersistentState RaftSnapshot RaftNode RaftNodeFrame RaftNodeHandlers RaftNodeLogs
open RaftNodeVotes RaftNodeAppends RaftNodeMoves RaftNodeSnapshots RaftNodeEffects RaftCluster
open RaftNodeLife RaftNodeJournal RaftClusterLogs
open LabelledRuns LogMatching LeaderCompleteness Quorums FullLog

/-- The peers whose AppendEntries result is an acknowledgement. -/
def ackers (appends : List (NodeId × Option AppendEntriesResponse)) : List NodeId :=
  (appends.filter (fun p => p.2.any AppendEntriesResponse.success)).map Prod.fst

theorem ackers_length (appends : List (NodeId × Option AppendEntriesResponse)) :
    (ackers appends).length = appendAcks appends := List.length_map _

theorem mem_ackers {appends : List (NodeId × Option AppendEntriesResponse)} {v : NodeId}
    (h : v ∈ ackers appends) :
    ∃ (i : ℕ) (r : AppendEntriesResponse), appends[i]? = some (v, some r) ∧ r.success = true := by
  obtain ⟨⟨p, r⟩, hmem, rfl⟩ := List.mem_map.mp h
  obtain ⟨hin, hany⟩ := List.mem_filter.mp hmem
  obtain ⟨i, hi⟩ := List.mem_iff_getElem?.mp hin
  cases r with
  | none => simp at hany
  | some r => exact ⟨i, r, hi, by simpa using hany⟩

theorem appendCalls_peers (n : Node) (index : ℕ) :
    ((n.appendCalls index).map Prod.fst).Sublist n.peers := by
  rw [Node.appendCalls, List.map_map, show Prod.fst ∘ (fun p : NodeId =>
    (p, n.buildAppendEntriesFor p index)) = id from rfl, List.map_id]
  exact List.filter_sublist

theorem mem_appendCalls {n : Node} {index : ℕ} {v : NodeId} {req : AppendEntriesRequest}
    (h : (v, req) ∈ n.appendCalls index) :
    v ∈ n.peers ∧ n.snapshotFor v index = none ∧ req = n.buildAppendEntriesFor v index := by
  obtain ⟨p, hp, heq⟩ := List.mem_map.mp h
  obtain ⟨rfl, rfl⟩ := Prod.mk.inj heq
  obtain ⟨hmem, hnone⟩ := List.mem_filter.mp hp
  exact ⟨hmem, Option.isNone_iff_eq_none.mp hnone, rfl⟩

section

variable {backed reads : Prop} {c : Cluster} {H H' : LogHistory} {es : List Event} {s s' : State}
  {id : NodeId} {n m : Node} {l l' : List LogEntry} {a : Action} {o : Outcome}

/-- With backed acks, the ones that are counted are a quorum of appends. -/
theorem backed_quorum {appends : List (NodeId × Option AppendEntriesResponse)}
    {snapshots : List (NodeId × Option InstallSnapshotResponse)} {index : ℕ}
    (hbacked : Backed n appends snapshots)
    (hq : n.quorum ≤ (n.begin.finishReplication index appends snapshots).1) :
    n.quorum ≤ 1 + appendAcks appends :=
  hbacked (hq.trans (finishReplication_cases n.begin index appends snapshots).1)

variable [Crc32]

/-- Whoever acknowledges a write has taken in the leader's log up to it. -/
theorem acked_of_success (h : Invariant backed reads c H es s) {index first : ℕ} {data : Bytes}
    (halive : Alive backed c H id n l) (hw : Replicating H s id n l index data first)
    {appends : List (NodeId × Option AppendEntriesResponse)}
    {snapshots : List (NodeId × Option InstallSnapshotResponse)}
    (happends : appends.map Prod.fst = (n.appendCalls index).map Prod.fst)
    (hres : Answered s first (appends.map (fun p => p.2.map .appendEntries) ++
      snapshots.map (fun p => p.2.map .installSnapshot))) :
    ∀ v ∈ ackers appends, v ∈ n.peers ∧ index ≤ H.acked v n.ps.currentTerm := by
  intro v hv
  obtain ⟨i, r, hresult, hyes⟩ := mem_ackers hv
  have hat : ((n.appendCalls index).map Prod.fst)[i]? = some v := by
    rw [← happends, List.getElem?_map, hresult]
    rfl
  rw [List.getElem?_map] at hat
  obtain ⟨⟨p, req⟩, hcall, rfl⟩ := Option.map_eq_some_iff.mp hat
  obtain ⟨hpeer, hnone, hreq⟩ := mem_appendCalls (List.mem_of_getElem? hcall)
  have hmade : (writeCalls id n index)[i]? = some ⟨id, p, .appendEntries req⟩ := by
    apply getElem?_grow
    rw [List.getElem?_map, hcall]
    rfl
  have hreply : (first + i, Response.appendEntries r) ∈ s.replies := by
    have hlt : i < appends.length := (List.getElem?_eq_some_iff.mp hresult).1
    apply hres
    rw [List.getElem?_append_left (by rwa [List.length_map]), List.getElem?_map, hresult]
    rfl
  obtain ⟨call, hcall', hok⟩ := h.replies _ _ hreply
  rw [hw.calls i _ hmade] at hcall'
  cases hcall'
  have htook := hok req rfl hyes
  rw [hw.last] at hnone hreq
  have hcovers := (built_sent halive hw.role hnone).2
  rw [← hreq, ← hw.last] at hcovers
  have hterm : req.term = n.ps.currentTerm := by
    rw [hreq]
    rfl
  rw [hterm] at htook
  exact ⟨hpeer, hcovers.trans htook⟩

/-- A write that a quorum of appends acknowledges is committed. -/
theorem committed_of_acks (h : Acting backed reads c H es s id n a) {index first : ℕ}
    {data : Bytes} (halive : Alive backed c H id n l)
    (hw : Replicating H s id n l index data first)
    {appends : List (NodeId × Option AppendEntriesResponse)}
    {snapshots : List (NodeId × Option InstallSnapshotResponse)}
    (happends : appends.map Prod.fst = (n.appendCalls index).map Prod.fst)
    (hres : Answered s first (appends.map (fun p => p.2.map .appendEntries) ++
      snapshots.map (fun p => p.2.map .installSnapshot)))
    (hq : n.quorum ≤ 1 + appendAcks appends) :
    H.Committed LogEntry.term (quorums c) n.ps.currentTerm index := by
  have hackers := acked_of_success h.invariant halive hw happends hres
  have hpeer : ∀ v ∈ n.peers, v ∈ c.members ∧ v ≠ id := by
    intro v hv
    rw [h.peers] at hv
    exact (c.mem_peers id h.member v).mp hv
  have hpeers : n.peers.Nodup := by
    rw [h.peers]
    exact c.peers_nodup id h.member
  have hnodup : (id :: ackers appends).Nodup := by
    rw [List.nodup_cons]
    refine ⟨fun hmem => (hpeer id (hackers id hmem).1).2 rfl, ?_⟩
    have hsub : ((ackers appends)).Sublist (appends.map Prod.fst) :=
      List.Sublist.map Prod.fst List.filter_sublist
    rw [happends] at hsub
    exact (hsub.trans (appendCalls_peers n index)).nodup hpeers
  have hentry : (H.llog n.ps.currentTerm)[index - 1]? = some ⟨n.ps.currentTerm, index, data⟩ := by
    rw [hw.leads]
    exact hw.entry
  refine ⟨Nat.zero_lt_of_lt hw.point, ⟨_, hentry, rfl⟩, ?_⟩
  apply majority_of_list hnodup
  · intro v hv
    rcases List.mem_cons.mp hv with rfl | hv
    · exact h.member
    · exact (hpeer v (hackers v hv).1).1
  · have hsize := RaftElections.peers_length h.member
    rw [Node.quorum, Node.clusterSize, h.peers, hsize] at hq
    rw [List.length_cons, ackers_length]
    omega
  · intro v hv
    rcases List.mem_cons.mp hv with rfl | hv
    · exact hw.stored
    · exact (hackers v hv).2

theorem next_written {index first : ℕ} {data : Bytes}
    {appends : List (NodeId × Option AppendEntriesResponse)}
    {snapshots : List (NodeId × Option InstallSnapshotResponse)}
    (h : Acting backed reads c H es s id n (.finishWrite index appends snapshots))
    (halive : Alive backed c H id n l) (hw : Replicating H s id n l index data first)
    (happends : appends.map Prod.fst = (n.appendCalls index).map Prod.fst)
    (hres : Answered s first (appends.map (fun p => p.2.map .appendEntries) ++
      snapshots.map (fun p => p.2.map .installSnapshot)))
    (hok : (raftConditions backed reads).action n (.finishWrite index appends snapshots)) :
    Next backed (quorums c) H id n (n.act (.finishWrite index appends snapshots))
      (H.advance id (n.act (.finishWrite index appends snapshots)).ps.currentTerm) l l := by
  obtain ⟨hroom, _, hbacks⟩ := hok
  apply next_finishWrite halive.member (quorums_upward c) h.invariant.lawful hw.toWrites appends
    snapshots hroom.1 hroom.2 (Nat.lt_of_le_of_lt h.term h.bound)
  intro hbacked hq
  exact committed_of_acks h halive hw happends hres (backed_quorum (hbacks hbacked) hq)

theorem Invariant.act_finishWrite {index first : ℕ} {data : Bytes}
    {appends : List (NodeId × Option AppendEntriesResponse)}
    {snapshots : List (NodeId × Option InstallSnapshotResponse)}
    (h : Acting backed reads c H es s id n (.finishWrite index appends snapshots))
    (hup : s.processes id = .waiting n (.write index data first))
    (happends : appends.map Prod.fst = (n.appendCalls index).map Prod.fst)
    (hres : Answered s first (appends.map (fun p => p.2.map .appendEntries) ++
      snapshots.map (fun p => p.2.map .installSnapshot)))
    (hok : (raftConditions backed reads).action n (.finishWrite index appends snapshots)) :
    ∃ H', Adds H H' [] ∧ Invariant backed reads c H'
      (es ++ (match (n.begin.finishWrite index appends snapshots).1 with
        | .ok i => some (Event.acknowledged id i n.ps.currentTerm data)
        | .error _ => none).toList)
      (s.after id (n.act (.finishWrite index appends snapshots)) ⟨none, [], [],
        match (n.begin.finishWrite index appends snapshots).1 with
        | .ok i => some (.acknowledged id i n.ps.currentTerm data)
        | .error _ => none⟩) := by
  obtain ⟨l, halive, hw⟩ := alive_waiting h.invariant h.member hup
  have hnext := next_written h halive hw happends hres hok
  have hg := hnext.grows
  have halive' := halive.next hnext (fun _ hfin => by cases hfin)
  have hevent : ∀ i, (n.begin.finishWrite index appends snapshots).1 = .ok i →
      EventOk backed reads c (H.advance id
        (n.act (.finishWrite index appends snapshots)).ps.currentTerm)
        (.acknowledged id i n.ps.currentTerm data) := by
    intro i hi hbacked
    rw [finishWrite_eq] at hi
    rcases commitWrite_cases (n.begin.finishReplication index appends snapshots).2 index
      (n.begin.finishReplication index appends snapshots).1 with ⟨herr, _⟩ | ⟨hgood, hq, _⟩
    · rw [hi] at herr
      cases herr
    · rw [hi] at hgood
      cases hgood
      rw [finishReplication_quorum] at hq
      have hcommitted := committed_of_acks h halive hw happends hres
        (backed_quorum (hok.2.2 hbacked) hq)
      refine ⟨hg.committed (quorums_upward c) hcommitted, ?_⟩
      rw [show (H.advance id _).llog n.ps.currentTerm = l from hw.leads]
      exact hw.entry
  refine ⟨_, .of_llog hg rfl, (h.around hnext).after (o := ⟨none, [], [], _⟩) ⟨l, halive'⟩
    (fun _ hc => by cases hc) (fun _ _ hr => by cases hr) ?_ (h.elected hnext _)⟩
  intro e he
  cases hresult : (n.begin.finishWrite index appends snapshots).1 with
  | error err =>
    rw [hresult] at he
    cases he
  | ok i =>
    rw [hresult] at he
    obtain rfl := List.mem_singleton.mp he
    exact hevent i hresult

/-- A heartbeat asks for no entries behind the leader's whole log. -/
theorem heartbeat_sent (h : Alive backed c H id n l) (hrole : n.role = .leader) :
    AppendSent backed (quorums c) H n.heartbeat := by
  obtain ⟨helected, hleads⟩ := h.leads hrole
  have hrep : Represents n.log.toLogView l := h.member.state.represents
  have hprev : n.heartbeat.prevLogIndex = l.length := hrep.lastIndex
  have hterm : n.heartbeat.prevLogTerm = lastTermOf l := hrep.lastTerm
  refine ⟨helected, Or.inl ⟨l, ⟨hrep.numbered, ?_, ?_, ?_, h.member.state.now.fits⟩, ?_,
    h.member.committed⟩⟩
  · rw [hprev, List.drop_length]
    rfl
  · exact Nat.le_of_eq hprev
  · intro _
    rw [hprev, hterm, List.take_length]
  · rw [show n.heartbeat.term = n.ps.currentTerm from rfl, hleads]

theorem Invariant.act_sendHeartbeats
    (h : Acting backed reads c H es s id n .sendHeartbeats) (hup : s.processes id = .running n)
    (hrole : n.role = .leader) :
    ∃ H', Adds H H' [] ∧ Invariant backed reads c H' es (s.after id (n.act .sendHeartbeats)
      ⟨some (.heartbeats s.calls.length),
        n.peers.map (fun p => ⟨id, p, .appendEntries n.heartbeat⟩), [], none⟩) := by
  obtain ⟨l, halive⟩ := alive_running h.invariant h.member hup
  have hnext := h.untouched halive (by simp [TouchesLog])
  have halive' := halive.next hnext (fun _ hfin => by cases hfin)
  have hp : ProcessOk backed c _ (s.after id (n.act .sendHeartbeats)
      ⟨some (.heartbeats s.calls.length),
        n.peers.map (fun p => ⟨id, p, .appendEntries n.heartbeat⟩), [], none⟩) id
      (.waiting (n.act .sendHeartbeats) (.heartbeats s.calls.length)) := ⟨l, halive', trivial⟩
  have hinv := (h.around hnext).after hp ?_ (fun _ _ hr => by cases hr) (by simp)
    (h.elected hnext none)
  · rw [Option.toList_none, List.append_nil] at hinv
    exact ⟨_, .of_llog hnext.grows rfl, hinv⟩
  intro call hcall
  obtain ⟨p, _, rfl⟩ := List.mem_map.mp hcall
  exact AppendSent.grow (heartbeat_sent halive hrole) hnext.grows

theorem Invariant.act_finishHeartbeats {results : List (Option AppendEntriesResponse)}
    (h : Acting backed reads c H es s id n (.finishHeartbeats results)) {first : ℕ}
    (hup : s.processes id = .waiting n (.heartbeats first)) :
    ∃ H', Adds H H' [] ∧ Invariant backed reads c H' es
      (s.after id (n.act (.finishHeartbeats results)) ⟨none, [], [], none⟩) := by
  obtain ⟨l, halive, _⟩ := alive_waiting h.invariant h.member hup
  have hinv := h.quiet halive (e := none) (by simp [TouchesLog]) (fun _ hfin => by cases hfin)
    (fun _ _ hr => absurd hr List.not_mem_nil) (by simp)
  rw [Option.toList_none, List.append_nil] at hinv
  exact ⟨_, .of_llog (h.untouched halive (by simp [TouchesLog])).grows rfl, hinv⟩

/-- An entry that a read returns stands at its index in the log. -/
theorem served_entry (h : Alive backed c H id n l) {fromIndex : ℕ} {e : LogEntry}
    (he : e ∈ n.clientRead fromIndex) : 0 < e.index ∧ l[e.index - 1]? = some e := by
  have hrep : Represents n.log.toLogView l := h.member.state.represents
  rw [Node.clientRead, hrep.entriesFrom] at he
  obtain ⟨i, hi⟩ := List.mem_iff_getElem?.mp (List.mem_of_mem_drop he)
  have hindex := hrep.numbered i e hi
  refine ⟨by omega, ?_⟩
  rw [hindex, Nat.add_sub_cancel]
  exact hi

theorem served_committed (h : Alive backed c H id n l) {fromIndex : ℕ} {e : LogEntry}
    (hok : ReadsCommitted n fromIndex) (he : e ∈ n.clientRead fromIndex) :
    e.index ≤ n.commitIndex := by
  have hrep : Represents n.log.toLogView l := h.member.state.represents
  obtain ⟨hpos, hat⟩ := served_entry h he
  obtain ⟨hin, _⟩ := List.getElem?_eq_some_iff.mp hat
  have hlast : e.index ≤ n.log.lastIndex := by
    rw [hrep.lastIndex]
    omega
  obtain hnone | hbeyond | hlow := hok
  · have hempty : n.clientRead fromIndex = [] := by
      rw [Node.clientRead, LogView.entriesFrom]
      simp [hnone]
    rw [hempty] at he
    exact absurd he List.not_mem_nil
  · have hempty : n.clientRead fromIndex = [] := by
      rw [Node.clientRead, LogView.entriesFrom, if_pos (by omega)]
    rw [hempty] at he
    exact absurd he List.not_mem_nil
  · exact hlast.trans hlow

theorem Invariant.act_clientRead {fromIndex : ℕ}
    (h : Acting backed reads c H es s id n (.clientRead fromIndex))
    (hup : s.processes id = .running n)
    (hok : (raftConditions backed reads).action n (.clientRead fromIndex)) :
    ∃ H', Adds H H' [] ∧
      Invariant backed reads c H' (es ++ [.served id fromIndex (n.clientRead fromIndex)])
      (s.after id (n.act (.clientRead fromIndex))
        ⟨none, [], [], some (.served id fromIndex (n.clientRead fromIndex))⟩) := by
  obtain ⟨l, halive⟩ := alive_running h.invariant h.member hup
  have hg := (h.untouched halive (by simp [TouchesLog])).grows
  refine ⟨_, .of_llog hg rfl,
    h.quiet halive (e := some (.served id fromIndex (n.clientRead fromIndex)))
    (by simp [TouchesLog]) (fun _ hfin => by cases hfin)
    (fun _ _ hr => absurd hr List.not_mem_nil) ?_⟩
  intro x hx
  obtain rfl := List.mem_singleton.mp hx
  intro hbacked hreads e he
  obtain ⟨hpos, hat⟩ := served_entry halive he
  have hlow := served_committed halive (hok.2.2 hreads) he
  refine ⟨hpos, Settled.grow ⟨_, _, (halive.member.committed hbacked).2, ?_⟩ hg⟩
  rw [List.getElem?_take_of_lt (by omega)]
  exact hat

/-- Whatever a member does leads to a later history. -/
theorem next_act (h : Acting backed reads c H es s id n a) (hact : Act s id n a o)
    (hok : (raftConditions backed reads).action n a) :
    ∃ H' l l', Adds H H' (proposed n a) ∧ Alive backed c H id n l ∧
      Next backed (quorums c) H id n (n.act a) H' l l' := by
  have hquiet : ∀ l, Alive backed c H id n l → ¬ TouchesLog a → proposed n a = [] →
      ∃ H' l l', Adds H H' (proposed n a) ∧ Alive backed c H id n l ∧
        Next backed (quorums c) H id n (n.act a) H' l l' := by
    intro l halive ha hnone
    have hnext := h.untouched halive ha
    rw [hnone]
    exact ⟨_, l, l, .of_llog hnext.grows rfl, halive, hnext⟩
  cases hact with
  | requestVote hup =>
    obtain ⟨l, halive⟩ := alive_running h.invariant h.member hup
    exact hquiet l halive (by simp [TouchesLog]) rfl
  | appendEntries hup hcall =>
    obtain ⟨l, halive⟩ := alive_running h.invariant h.member hup
    have hsent := h.invariant.calls _ (List.mem_of_getElem? hcall)
    obtain ⟨l', hnext, _⟩ := next_appendEntries halive.member (quorums_upward c)
      h.invariant.lawful h.invariant.chosen hsent hok.2.2 hok.1.1
    exact ⟨_, l, l', .of_llog hnext.grows rfl, halive, hnext⟩
  | installSnapshot hup hcall =>
    obtain ⟨l, halive⟩ := alive_running h.invariant h.member hup
    have hsent := h.invariant.calls _ (List.mem_of_getElem? hcall)
    obtain ⟨l', hnext⟩ := next_installSnapshot halive.member (quorums_upward c)
      h.invariant.lawful h.invariant.chosen hsent hok.2.2 hok.1.1
    exact ⟨_, l, l', .of_llog hnext.grows rfl, halive, hnext⟩
  | startElection hup =>
    obtain ⟨l, halive⟩ := alive_running h.invariant h.member hup
    exact hquiet l halive (by simp [TouchesLog]) rfl
  | finishElection hup =>
    obtain ⟨l, halive, _⟩ := alive_waiting h.invariant h.member hup
    exact hquiet l halive (by simp [TouchesLog]) rfl
  | @writeRefused data err hup hwrite =>
    obtain ⟨l, halive⟩ := alive_running h.invariant h.member hup
    have hnot := startWrite_error h halive hwrite hok.1.1
    have hnext := next_writeRefused halive.member (quorums_upward c) h.invariant.lawful hnot
    rw [proposed, hwrite]
    exact ⟨_, l, l, .of_llog hnext.grows rfl, halive, hnext⟩
  | writeStarted hup hwrite =>
    obtain ⟨l, halive⟩ := alive_running h.invariant h.member hup
    obtain ⟨hrole, hfit⟩ := startWrite_ok halive hwrite
    obtain ⟨hindex, hnext⟩ := next_startWrite halive.member (quorums_upward c)
      h.invariant.lawful hrole (h.leading hrole) (halive.leads hrole).1 (halive.leads hrole).2
      hfit hok.1.1
    refine ⟨_, l, _, ?_, halive, hnext⟩
    rw [proposed, hindex]
    refine push_extends rfl ?_
    rw [(halive.leads hrole).2]
  | finishWrite hup happends hsnapshots hres =>
    obtain ⟨l, halive, hw⟩ := alive_waiting h.invariant h.member hup
    have hnext := next_written h halive hw happends hres hok
    exact ⟨_, l, l, .of_llog hnext.grows rfl, halive, hnext⟩
  | sendHeartbeats hup =>
    obtain ⟨l, halive⟩ := alive_running h.invariant h.member hup
    exact hquiet l halive (by simp [TouchesLog]) rfl
  | finishHeartbeats hup =>
    obtain ⟨l, halive, _⟩ := alive_waiting h.invariant h.member hup
    exact hquiet l halive (by simp [TouchesLog]) rfl
  | clientRead hup =>
    obtain ⟨l, halive⟩ := alive_running h.invariant h.member hup
    exact hquiet l halive (by simp [TouchesLog]) rfl

/-- Only a write proposes an entry, and it leaves the term alone. -/
theorem proposed_cases (n : Node) (a : Action) :
    proposed n a = [] ∨ (n.act a).ps.currentTerm = n.ps.currentTerm := by
  cases a with
  | startWrite data =>
    exact Or.inr (congrArg PersistentState.currentTerm (startWrite_quiet n.begin data).ps)
  | _ => exact Or.inl rfl

/-- A crash leaves the files from before the action or files of the term after it. -/
theorem Invariant.crash (h : Acting backed reads c H es s id n a) (hact : Act s id n a o)
    (hok : (raftConditions backed reads).action n a)
    (hdurable : (stored n.ps.file).1 = n.ps.currentTerm) {img : Image}
    (himg : img ∈ (n.act a).trail) :
    ∃ H', Adds H H' (proposed n a) ∧
      Invariant backed reads c H' es (s.set id (.crashed img)) := by
  obtain ⟨H', l, l', hmore, halive, hnext⟩ := next_act h hact hok
  by_cases hterm : (stored img.stateFile).1 = (n.act a).ps.currentTerm
  · have helected := h.elected hnext none
    rw [Option.toList_none, List.append_nil] at helected
    refine ⟨H', hmore, (h.around hnext).set ⟨?_, ?_⟩ helected⟩
    · rw [hterm]
      exact hnext.member.current
    · rw [hterm]
      exact hnext.state.images img himg
  · have hfile : (stored n.image.stateFile).1 = n.ps.currentTerm := hdurable
    have hold := ((act_moved hdurable h.bound).images img himg).resolve_right hterm
    subst hold
    have hnone := (proposed_cases n a).resolve_right (fun hkept => hterm (hfile.trans hkept.symm))
    rw [hnone]
    refine ⟨H, .refl, (h.invariant.around id).set ⟨?_, ?_⟩ h.invariant.elected⟩
    · rw [hfile]
      exact halive.member.current
    · rw [hfile]
      exact halive.member.state.image

/-- A member that starts again stands where its files do. -/
theorem Invariant.restart (h : Invariant backed reads c H es s) (hid : id ∈ c.members)
    {img : Image} (hdown : s.processes id = .crashed img) (hok : Reopens img)
    (hstart : Node.start id (c.peers id) img.stateFile img.wal img.snapshotFile = .ok n) :
    Invariant backed reads c H es (s.set id (.running n)) := by
  have hp := h.processes id hid
  rw [hdown] at hp
  obtain ⟨hcur, himg⟩ := hp
  obtain ⟨l, hstate, _, hn⟩ := start_state himg hok hstart
  have hterm : n.ps.currentTerm = (stored img.stateFile).1 := by
    rw [hn.ps]
    rfl
  have hloaded : ∀ s', n.snapshot = some s' →
      Covered backed (quorums c) H n.ps.currentTerm s' := by
    intro s' hs'
    rw [hn.snapshot] at hs'
    cases hfile : img.snapshotFile with
    | none =>
      rw [hfile] at hs'
      cases hs'
    | some bytes =>
      obtain ⟨s₀, rfl, hs₀⟩ := himg.file bytes hfile
      obtain ⟨p, hp, hrest⟩ := hs₀
      obtain ⟨data, hload, _⟩ := load_fileBytes (s := s₀) hp.index hp.bound
      rw [hfile, hload] at hs'
      cases hs'
      rw [hterm]
      exact ⟨p, hp, hrest⟩
  refine (h.around id).set ⟨l, ⟨⟨hcur.trans hterm.symm, ?_, hloaded, ?_, ?_⟩, ?_⟩⟩ h.elected
  · rw [hterm]
    exact hstate.begin hstate.now
  · intro hpos
    have hcovered := hstate.covered hpos
    rw [hn.snapshotFile] at hcovered
    obtain ⟨bytes, hfile⟩ := Option.ne_none_iff_exists'.mp hcovered
    obtain ⟨s₀, rfl, p, hp, _⟩ := himg.file bytes hfile
    obtain ⟨data, hload, _⟩ := load_fileBytes (s := s₀) hp.index hp.bound
    rw [hn.snapshot, hfile, hload]
    simp
  · intro _
    rw [hn.commitIndex]
    exact ⟨Nat.zero_le _, Or.inl rfl⟩
  · intro hlead
    rw [hn.role] at hlead
    cases hlead

/-- Nothing has happened yet. -/
def noHistory : LogHistory := ⟨∅, fun _ => [], fun _ => [], fun _ => 0, fun _ _ => 0⟩

omit [Crc32] in
theorem noHistory_lawful : noHistory.Lawful LogEntry.term := by
  refine ⟨fun _ => List.prefix_refl _, ?_, ?_, fun _ => .nil, ?_, fun _ _ => le_rfl,
    fun _ _ _ => rfl⟩
  · intro t x hx
    cases hx
  · intro t x hx
    cases hx
  · intro t hne
    exact absurd rfl hne

theorem alive_new {peers : List NodeId}
    (hstart : Node.start id peers none Dir.empty none = .ok n) :
    Alive backed c noHistory id n [] := by
  obtain ⟨hview, hhealthy, hcfg, hn⟩ := start_empty hstart
  have hterm : n.ps.currentTerm = 0 := by
    rw [hn.ps]
    rfl
  have hpoint : ¬ 0 < n.log.snapshotIndex := by
    rw [hview]
    decide
  have hempty : Holding backed noHistory id n.ps.currentTerm [] := by
    refine ⟨.nil, ?_, ?_, ?_⟩
    · exact fun x hx => absurd hx List.not_mem_nil
    · exact fun x hx => absurd hx List.not_mem_nil
    intro _ t _ k hk
    obtain rfl := Nat.le_zero.mp hk
    exact Or.inl List.nil_prefix
  have hstate : LogState (Holding backed noHistory id n.ps.currentTerm)
      (Covered backed (quorums c) noHistory n.ps.currentTerm) n [] := by
    refine ⟨⟨_, hhealthy⟩, hcfg, ?_, hempty, ?_, fun hpos => absurd hpos hpoint, ?_⟩
    · rw [hview]
      exact .empty
    · intro bytes hbytes
      rw [hn.snapshotFile] at hbytes
      cases hbytes
    · rw [hn.trail]
      intro img himg
      cases himg
  refine ⟨⟨hterm.symm, hstate.begin hempty, ?_, fun hpos => absurd hpos hpoint, ?_⟩, ?_⟩
  · intro s hs
    rw [hn.snapshot] at hs
    cases hs
  · intro _
    rw [hn.commitIndex]
    exact ⟨le_rfl, Or.inl rfl⟩
  · intro hlead
    rw [hn.role] at hlead
    cases hlead

theorem Invariant.start (h : Starts c s) : Invariant backed reads c noHistory [] s := by
  refine ⟨noHistory_lawful, ?_, ?_, ?_, ?_, ?_, ?_⟩
  · intro _ u hu
    cases hu
  · intro t ht
    cases ht
  · intro id hid
    obtain ⟨n, hstart, hup⟩ := h.processes id hid
    rw [hup]
    exact ⟨[], alive_new hstart⟩
  · intro call hcall
    rw [h.calls] at hcall
    cases hcall
  · intro k resp hresp
    rw [h.replies] at hresp
    cases hresp
  · intro e he
    cases he

/-- A member acts. -/
theorem invariant_act (run : ClusterRun c (raftConditions backed reads) es s)
    (h : Invariant backed reads c H es s) (hid : id ∈ c.members) (hact : Act s id n a o)
    (hb : Bounded n a) (hok : (raftConditions backed reads).action n a) :
    ∃ H', Adds H H' (proposed n a) ∧
      Invariant backed reads c H' (es ++ o.event.toList) (s.after id (n.act a) o) := by
  have hacting := acting_of_run run h hid hact hb
  have hstep : Step c (raftConditions backed reads) s o.event (s.after id (n.act a) o) :=
    .act hid hact hb hok
  cases hact with
  | requestVote hup hcall hsize =>
    obtain ⟨H', hmore, hinv⟩ := Invariant.act_requestVote hacting hup hcall
    exact ⟨H', hmore, by simpa using hinv⟩
  | appendEntries hup hcall =>
    obtain ⟨H', hmore, hinv⟩ := Invariant.act_appendEntries hacting hup hcall hok
    exact ⟨H', hmore, by simpa using hinv⟩
  | installSnapshot hup hcall =>
    obtain ⟨H', hmore, hinv⟩ := Invariant.act_installSnapshot hacting hup hcall hok
    exact ⟨H', hmore, by simpa using hinv⟩
  | startElection hup hrole =>
    obtain ⟨H', hmore, hinv⟩ := Invariant.act_startElection hacting hup
    exact ⟨H', hmore, by simpa using hinv⟩
  | @finishElection first results hup hlen hres =>
    obtain ⟨votes, hv⟩ := RaftElections.invariant_of_run run
    have hrole := (hv.electing id hid n first hup).role
    refine Invariant.act_finishElection hacting hup hlen hres ?_ hrole
    intro hlead hin
    have hlead' : (n.begin.finishElection results).role = .leader := hlead
    rcases act_leader hlead with ⟨hnlead, _⟩ | ⟨results', ha, hn, _⟩
    · rw [hrole] at hnlead
      cases hnlead
    · have hcur : (n.begin.finishElection results).ps.currentTerm = n.ps.currentTerm := by
        rw [show n.begin.finishElection results = n.begin.becomeLeader from hn]
        rfl
      obtain ⟨i, hi⟩ := h.elected _ hin
      simp only [hlead', if_true, hcur] at hstep
      exact RaftElections.elected_once run hstep i hi
  | writeRefused hup hwrite =>
    obtain ⟨H', hmore, hinv⟩ := Invariant.act_writeRefused hacting hup hwrite hok
    refine ⟨H', ?_, by simpa using hinv⟩
    rw [proposed, hwrite]
    exact hmore
  | writeStarted hup hwrite =>
    obtain ⟨H', hmore, hinv⟩ := Invariant.act_writeStarted hacting hup hwrite hok
    refine ⟨H', ?_, by simpa using hinv⟩
    rw [proposed, hwrite]
    exact hmore
  | finishWrite hup happends hsnapshots hres =>
    exact Invariant.act_finishWrite hacting hup happends hres hok
  | sendHeartbeats hup hrole =>
    obtain ⟨H', hmore, hinv⟩ := Invariant.act_sendHeartbeats hacting hup hrole
    exact ⟨H', hmore, by simpa using hinv⟩
  | finishHeartbeats hup hlen hres =>
    obtain ⟨H', hmore, hinv⟩ := Invariant.act_finishHeartbeats hacting hup
    exact ⟨H', hmore, by simpa using hinv⟩
  | clientRead hup => exact Invariant.act_clientRead hacting hup hok

/-- The files of a member that is down give back its log. -/
theorem files_reopen (run : ClusterRun c (raftConditions backed reads) es s)
    (hid : id ∈ c.members) {img : Image} (hdown : s.processes id = .crashed img) :
    Reopens img := by
  have hlife := life_of_run run hid
  rw [hdown] at hlife
  have himg : Recoverable True img := by
    apply life_sound ?_ ?_ ?_ hlife
    · intro n a hok
      exact hok.1
    · intro img file hok
      exact hok.1
    · intro _ n a hok
      exact hok.2.1
  exact himg.reopens

/-- What the members propose in a step. -/
inductive Proposes (c : Cluster) (ok : Conditions) (s : State) :
    List LogEntry → Option Event → State → Prop where
  | act {id : NodeId} {n : Node} {a : Action} {o : Outcome} (hid : id ∈ c.members)
      (hact : Act s id n a o) (hb : Bounded n a) (hok : ok.action n a) :
      Proposes c ok s (proposed n a) o.event (s.after id (n.act a) o)
  | crash {id : NodeId} {n : Node} {a : Action} {o : Outcome} {img : Image}
      (hid : id ∈ c.members) (hact : Act s id n a o) (hb : Bounded n a) (hok : ok.action n a)
      (himg : img ∈ (n.act a).trail) :
      Proposes c ok s (proposed n a) none (s.set id (.crashed img))
  | restart {id : NodeId} {img : Image} {n : Node} (hid : id ∈ c.members)
      (hdown : s.processes id = .crashed img) (hok : ok.restart img)
      (hstart : Node.start id (c.peers id) img.stateFile img.wal img.snapshotFile = .ok n) :
      Proposes c ok s [] none (s.set id (.running n))

theorem Proposes.step {ok : Conditions} {ps : List LogEntry} {e : Option Event}
    (h : Proposes c ok s ps e s') : Step c ok s e s' := by
  cases h with
  | act hid hact hb hok => exact .act hid hact hb hok
  | crash hid hact hb hok himg => exact .crash hid hact hb hok himg
  | restart hid hdown hok hstart => exact .restart hid hdown hok hstart

theorem proposes_of_step {ok : Conditions} {e : Option Event} (h : Step c ok s e s') :
    ∃ ps, Proposes c ok s ps e s' := by
  cases h with
  | act hid hact hb hok => exact ⟨_, .act hid hact hb hok⟩
  | crash hid hact hb hok himg => exact ⟨_, .crash hid hact hb hok himg⟩
  | restart hid hdown hok hstart => exact ⟨_, .restart hid hdown hok hstart⟩

/-- A step with the entries that it proposes and what is seen of it. -/
def Labelled (c : Cluster) (ok : Conditions) (s : State) (f : List LogEntry × Option Event)
    (s' : State) : Prop := Proposes c ok s f.1 f.2 s'

theorem labelled_steps {ok : Conditions} {fs : List (List LogEntry × Option Event)}
    (k : Steps (Labelled c ok) s fs s') : Steps (Step c ok) s (fs.map Prod.snd) s' :=
  k.map (fun _ _ _ h => Proposes.step h)

theorem run_steps {ok : Conditions} {fs : List (Option Event)} (run : ClusterRun c ok es s)
    (k : Steps (Step c ok) s fs s') :
    ClusterRun c ok (es ++ fs.reduceOption) s' := by
  induction k with
  | nil => simpa using run
  | @snoc t u fs e k he ih =>
    rw [List.reduceOption_append, List.reduceOption_singleton, ← List.append_assoc]
    exact ih.step he

/-- A step leads to a later history, which has only the proposed entries besides the old
ones. -/
theorem invariant_step (run : ClusterRun c (raftConditions backed reads) es s)
    (h : Invariant backed reads c H es s) {ps : List LogEntry} {e : Option Event}
    (hstep : Proposes c (raftConditions backed reads) s ps e s') :
    ∃ H', Adds H H' ps ∧ Invariant backed reads c H' (es ++ e.toList) s' := by
  cases hstep with
  | act hid hact hb hok => exact invariant_act run h hid hact hb hok
  | crash hid hact hb hok himg =>
    obtain ⟨votes, hv⟩ := RaftElections.invariant_of_run run
    have hdurable := ((hv.processes _ hid).node hact.node).remembers.durable
    obtain ⟨H', hmore, hinv⟩ :=
      Invariant.crash (acting_of_run run h hid hact hb) hact hok hdurable himg
    exact ⟨H', hmore, by simpa using hinv⟩
  | restart hid hdown _ hstart =>
    exact ⟨H, .refl,
      by simpa using Invariant.restart h hid hdown (files_reopen run hid hdown) hstart⟩

/-- Every state of a run has a history that explains it. -/
theorem invariant_of_run (run : ClusterRun c (raftConditions backed reads) es s) :
    ∃ H, Invariant backed reads c H es s := by
  induction run with
  | start h => exact ⟨_, Invariant.start h⟩
  | step run hstep ih =>
    obtain ⟨H, h⟩ := ih
    obtain ⟨ps, hstep⟩ := proposes_of_step hstep
    obtain ⟨H', _, h'⟩ := invariant_step run h hstep
    exact ⟨H', h'⟩

end

end RaftClusterRuns
