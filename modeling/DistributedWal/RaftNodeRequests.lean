import DistributedWal.RaftNodeWrites
import DistributedWal.RaftNodeBacktracking

/-! # The requests that a leader sends

A follower trusts a request to carry the entries that follow the previous one. The leader
builds it from a next index that replies may have put anywhere, and a leader whose snapshot
is missing has nothing to send for an index that its log no longer holds.
-/
namespace RaftNodeRequests

open LittleEndianCodec WalSegment WalEngine WalContents ReplicatedLog ReplicatedLogContents
open WalEntry (Crc32 ieee WalError)
open RaftPersistentState RaftSnapshot RaftNode RaftNodeFrame RaftNodeHandlers RaftNodeLogs
open RaftNodeVotes RaftNodeAppends RaftNodeAgreement RaftNodeMoves RaftNodeLife
open RaftNodeWrites RaftNodeBacktracking FullLog

/-- The entries follow the previous one, which is the leader's own. -/
structure WellFormedRequest (n : Node) (req : AppendEntriesRequest) : Prop where
  entries : Consecutive (req.prevLogIndex + 1) req.entries
  previous : req.prevLogIndex = 0 ∨ n.log.termAt req.prevLogIndex = some req.prevLogTerm

/-- No peer has a next index that the log no longer holds, unless there is a snapshot for
it. -/
def Supplied (n : Node) : Prop :=
  n.snapshot = none → ∀ p ∈ n.peers, ∀ v, n.nextIndex p = some v → n.log.snapshotIndex < v

/-- No refusal gives a hint from behind the place of the leader's next entry but one. -/
def HintsWithin (n : Node) (appends : List (NodeId × Option AppendEntriesResponse)) : Prop :=
  ∀ p resp, (p, some resp) ∈ appends → resp.success = false →
    resp.conflictIndex ≤ n.log.lastIndex + 2

/-- Every peer has a next index within the bound. -/
def NextWithin (n : Node) (bound : ℕ) : Prop :=
  ∀ p ∈ n.peers, ∃ v, n.nextIndex p = some v ∧ v ≤ bound

theorem Consecutive.cons {i : ℕ} {e : LogEntry} {entries : List LogEntry} (he : e.index = i)
    (h : Consecutive (i + 1) entries) : Consecutive i (e :: entries) := by
  intro k x hx
  cases k with
  | zero =>
    cases hx
    exact he
  | succ k =>
    have := h k x hx
    omega

/-- The part up to an index. -/
theorem Consecutive.filter_le {i : ℕ} {entries : List LogEntry} (h : Consecutive i entries)
    (upTo : ℕ) : Consecutive i (entries.filter (fun e => e.index ≤ upTo)) := by
  induction entries generalizing i with
  | nil => exact h
  | cons e entries ih =>
    by_cases hle : e.index ≤ upTo
    · rw [List.filter_cons_of_pos (by simpa using hle)]
      exact Consecutive.cons h.head (ih h.tail)
    · have hnone : (e :: entries).filter (fun e => e.index ≤ upTo) = [] := by
        rw [List.filter_eq_nil_iff]
        intro x hx
        have := (h.mem hx).1
        have := h.head
        simp only [decide_eq_true_eq]
        omega
      rw [hnone]
      intro k x hx
      cases hx

theorem buildAppendEntriesFor_wellFormed {n : Node} (hc : n.log.toLogView.Contiguous)
    {peer : NodeId} {next : ℕ} (hnext : n.nextIndex peer = some next)
    (hlow : n.log.snapshotIndex < next) (hlast : next ≤ n.log.lastIndex + 1) (upTo : ℕ) :
    WellFormedRequest n (n.buildAppendEntriesFor peer upTo) := by
  have hprev : (n.buildAppendEntriesFor peer upTo).prevLogIndex = next - 1 := by
    rw [Node.buildAppendEntriesFor, hnext]
    rfl
  constructor
  · have hentries : (n.buildAppendEntriesFor peer upTo).entries =
        (n.log.entriesFrom next).filter (fun e => e.index ≤ upTo) := by
      rw [Node.buildAppendEntriesFor, hnext]
      rfl
    rw [hprev, hentries, show next - 1 + 1 = next by omega]
    apply Consecutive.filter_le
    rw [LogView.entriesFrom, Nat.max_eq_left hlow]
    split
    · intro k x hx
      cases hx
    · have hdrop := (contiguous_consecutive hc).drop (next - n.log.snapshotIndex - 1)
      rwa [show n.log.snapshotIndex + 1 + (next - n.log.snapshotIndex - 1) = next by omega]
        at hdrop
  · by_cases hpos : 0 < next - 1
    · right
      obtain ⟨t, ht⟩ := termAt_known (v := n.log.toLogView) hpos (by omega) (by omega)
      have hterm : (n.buildAppendEntriesFor peer upTo).prevLogTerm =
          (n.log.termAt (next - 1)).getD 0 := by
        rw [Node.buildAppendEntriesFor, hnext]
        rfl
      rw [hprev, hterm, ht]
      rfl
    · left
      rw [hprev]
      omega

/-- A leader with such next indices sends only such requests. -/
theorem appendCalls_wellFormed {n : Node} (hc : n.log.toLogView.Contiguous)
    (hnext : NextWithin n (n.log.lastIndex + 1)) (hsupplied : Supplied n) {upTo : ℕ}
    {p : NodeId} {req : AppendEntriesRequest} (hcall : (p, req) ∈ n.appendCalls upTo) :
    WellFormedRequest n req := by
  obtain ⟨q, hq, heq⟩ := List.mem_map.mp hcall
  cases heq
  obtain ⟨hpeer, hnone⟩ := List.mem_filter.mp hq
  obtain ⟨v, hv, hlast⟩ := hnext p hpeer
  apply buildAppendEntriesFor_wellFormed hc hv ?_ hlast
  by_contra hlow
  rw [Node.snapshotFor, hv, if_pos (by simpa using hlow)] at hnone
  cases hsnap : n.snapshot with
  | none => exact hlow (hsupplied hsnap p hpeer v hv)
  | some s =>
    rw [hsnap] at hnone
    cases hnone

theorem update_next {Q : ℕ → Prop} {next : NodeId → Option ℕ} {p : NodeId}
    (h : ∃ w, next p = some w ∧ Q w) (peer : NodeId) {v : ℕ} (hv : Q v) :
    ∃ w, Function.update next peer (some v) p = some w ∧ Q w := by
  by_cases hp : p = peer
  · rw [hp, Function.update_self]
    exact ⟨v, rfl, hv⟩
  · rw [Function.update_of_ne hp]
    exact h

/-- The results of a replication put every next index at a hint, behind the log or behind
the snapshot. -/
theorem countAppends_next {Q : ℕ → Prop} {upTo : ℕ} (hup : Q (upTo + 1))
    {results : List (NodeId × Option AppendEntriesResponse)} {n : Node} {acks : ℕ}
    (hhints : ∀ p resp, (p, some resp) ∈ results → resp.success = false → Q resp.conflictIndex)
    {p : NodeId} (h : ∃ v, n.nextIndex p = some v ∧ Q v) {k : ℕ} {m : Node}
    (hok : n.countAppends upTo acks results = .ok (k, m)) :
    ∃ v, m.nextIndex p = some v ∧ Q v := by
  induction results generalizing n acks with
  | nil =>
    cases hok
    exact h
  | cons r results ih =>
    obtain ⟨peer, result⟩ := r
    have hrest : ∀ p resp, (p, some resp) ∈ results → resp.success = false →
        Q resp.conflictIndex := fun p resp hmem => hhints p resp (List.mem_cons_of_mem _ hmem)
    rw [Node.countAppends] at hok
    split at hok
    · cases hok
    · split at hok
      · exact ih hrest (update_next h peer hup) hok
      · rename_i hno
        split at hok
        · rename_i hpos
          cases result with
          | none => simp at hpos
          | some resp =>
            have hno : resp.success = false := by simpa using hno
            have hhint := hhints peer resp (List.mem_cons_self ..) hno
            exact ih hrest (update_next h peer hhint) hok
        · exact ih hrest h hok

theorem countSnapshots_next {Q : ℕ → Prop} {results : List (NodeId × Option InstallSnapshotResponse)}
    {n : Node} {acks : ℕ} (hpoint : Q (n.log.snapshotIndex + 1)) {p : NodeId}
    (h : ∃ v, n.nextIndex p = some v ∧ Q v)
    (hrole : (n.countSnapshots acks results).2.role = .leader) :
    ∃ v, (n.countSnapshots acks results).2.nextIndex p = some v ∧ Q v := by
  induction results generalizing n acks with
  | nil => exact h
  | cons r results ih =>
    obtain ⟨peer, result⟩ := r
    cases result with
    | none => exact ih hpoint h hrole
    | some resp =>
      rw [Node.countSnapshots] at hrole ⊢
      split at hrole
      · cases hrole
      · rename_i hle
        rw [if_neg hle]
        split at hrole
        · rename_i hyes
          rw [if_pos hyes]
          dsimp only at hrole ⊢
          refine ih ?_ ?_ hrole
          · exact hpoint
          · exact update_next h peer hpoint
        · rename_i hno
          rw [if_neg hno]
          exact ih hpoint h hrole

theorem finishReplication_next {Q : ℕ → Prop} {n : Node} {upTo : ℕ}
    {appends : List (NodeId × Option AppendEntriesResponse)}
    {snapshots : List (NodeId × Option InstallSnapshotResponse)} (hup : Q (upTo + 1))
    (hpoint : Q (n.log.snapshotIndex + 1))
    (hhints : ∀ p resp, (p, some resp) ∈ appends → resp.success = false → Q resp.conflictIndex)
    {p : NodeId} (h : ∃ v, n.nextIndex p = some v ∧ Q v)
    (hrole : (n.finishReplication upTo appends snapshots).2.role = .leader) :
    ∃ v, (n.finishReplication upTo appends snapshots).2.nextIndex p = some v ∧ Q v := by
  rw [Node.finishReplication] at hrole ⊢
  rcases countAppends_cases n upTo 1 appends with
    ⟨k, m, hok, _, ni, mi, hm⟩ | ⟨k, m, herr, _, q, r, ni, mi, _, _, hm⟩
  · have hnext := countAppends_next hup hhints h hok
    rw [hok] at hrole ⊢
    dsimp only at hrole ⊢
    have hlog : m.log = n.log := by
      rw [hm]
      rfl
    rw [← hlog] at hpoint
    exact countSnapshots_next hpoint hnext hrole
  · rw [herr] at hrole
    dsimp only at hrole
    rw [hm] at hrole
    cases hrole

/-- `writing`: the next indices with which the requests are built. -/
structure Invariant (n : Node) (d : Doing) : Prop where
  contiguous : n.log.toLogView.Contiguous
  leading : n.role = .leader → NextWithin n (n.log.lastIndex + 2)
  writing : ∀ index data, d = .writing index data →
    n.role = .leader ∧ index = n.log.lastIndex ∧ NextWithin n (n.log.lastIndex + 1) ∧ Supplied n

/-- A node that has just started leads nobody. -/
theorem Invariant.started {n : Node} (hc : n.log.toLogView.Contiguous)
    (hrole : n.role = .follower) : Invariant n .idle := by
  refine ⟨hc, ?_, fun index data hd => by cases hd⟩
  intro hlead
  rw [hrole] at hlead
  cases hlead

section

variable [Crc32]

/-- What the leaders of the runs in question do not meet: a recovered log with gaps, hints
from far behind their logs, a lagging peer without a snapshot for it. -/
def supplied : LifeConditions where
  action n a :=
    match a with
    | .startWrite _ => Supplied n
    | .finishWrite _ appends _ => HintsWithin n appends
    | _ => True
  restart img _ := ∀ log, RaftLog.open walConfig img.wal = .ok log → log.toLogView.Contiguous

/-- A leader that stays one has not touched its log or its next indices, except in the two
halves of a write. -/
theorem act_steady {n : Node} {a : Action} (hrole : (n.act a).role = .leader)
    (helection : ∀ results, a ≠ .finishElection results) (hstart : ∀ data, a ≠ .startWrite data)
    (hfinish : ∀ index appends snapshots, a ≠ .finishWrite index appends snapshots) :
    (n.act a).log = n.log ∧ (n.act a).nextIndex = n.nextIndex ∧ n.role = .leader := by
  have hlead : n.role = .leader := by
    rcases act_leader hrole with ⟨h, _⟩ | ⟨results, h, _⟩
    · exact h
    · exact absurd h (helection results)
  cases a with
  | requestVote req =>
    have hobs : (observeTerm n.begin req.term).nextIndex = n.nextIndex := by
      rw [observeTerm]
      split <;> rfl
    refine ⟨(act_untouched (by simp [TouchesLog])).log, ?_, hlead⟩
    rw [Node.act]
    obtain ⟨_, ⟨_, hn⟩ | ⟨_, hn, _⟩⟩ := onRequestVote_cases n.begin req
    · rw [hn]
      exact hobs
    · rw [hn]
      exact hobs
  | appendEntries req =>
    rw [Node.act, onAppendEntries_role] at hrole
    have hstale : req.term < n.begin.ps.currentTerm := by
      by_contra hle
      rw [if_neg hle] at hrole
      cases hrole
    rw [Node.act, Node.onAppendEntries, if_pos hstale]
    exact ⟨rfl, rfl, hlead⟩
  | installSnapshot req =>
    rw [Node.act, onInstallSnapshot_role] at hrole
    have hstale : req.term < n.begin.ps.currentTerm := by
      by_contra hle
      rw [if_neg hle] at hrole
      cases hrole
    rw [Node.act, Node.onInstallSnapshot, if_pos hstale]
    exact ⟨rfl, rfl, hlead⟩
  | startElection => exact ⟨rfl, rfl, hlead⟩
  | finishElection results => exact absurd rfl (helection results)
  | startWrite data => exact absurd rfl (hstart data)
  | finishWrite index appends snapshots => exact absurd rfl (hfinish index appends snapshots)
  | sendHeartbeats => exact ⟨rfl, rfl, hlead⟩
  | clientRead fromIndex => exact ⟨rfl, rfl, hlead⟩
  | finishHeartbeats results =>
    rw [Node.act] at hrole ⊢
    rcases finishHeartbeats_cases n.begin results with hn | ⟨r, _, _, hn⟩
    · rw [hn]
      exact ⟨rfl, rfl, hlead⟩
    · rw [hn] at hrole
      cases hrole

theorem Invariant.steady {n : Node} {d d' : Doing} {a : Action} (h : Invariant n d)
    (helection : ∀ results, a ≠ .finishElection results) (hstart : ∀ data, a ≠ .startWrite data)
    (hfinish : ∀ index appends snapshots, a ≠ .finishWrite index appends snapshots)
    (hdone : ∀ index data, d' ≠ .writing index data) : Invariant (n.act a) d' := by
  refine ⟨act_contiguous h.contiguous a, ?_, fun index data hd => absurd hd (hdone index data)⟩
  intro hrole
  obtain ⟨hlog, hnext, hlead⟩ := act_steady hrole helection hstart hfinish
  intro p hp
  rw [(act_identity n a).2] at hp
  rw [hnext, hlog]
  exact h.leading hlead p hp

theorem startWrite_progress (n : Node) (data : Bytes) :
    (n.startWrite data).2.nextIndex = n.nextIndex ∧ (n.startWrite data).2.snapshot = n.snapshot := by
  rcases startWrite_node n data with hn | hn
  · rw [hn]
    exact ⟨rfl, rfl⟩
  · rw [hn]
    exact ⟨rfl, rfl⟩

theorem Invariant.finishElection {n : Node} (h : Invariant n .electing)
    (results : List (Option RequestVoteResponse)) :
    Invariant (n.act (.finishElection results)) .idle := by
  refine ⟨act_contiguous h.contiguous _, ?_, fun index data hd => by cases hd⟩
  intro hrole p hp
  rw [(act_identity n _).2] at hp
  have hlog := (act_untouched (n := n) (a := .finishElection results) id).log
  rw [hlog]
  rcases act_leader hrole with ⟨hlead, _⟩ | ⟨_, _, hwon, _⟩
  · rw [Node.act] at hrole ⊢
    rcases finishElection_cases n.begin results with
      ⟨r, _, _, hn⟩ | ⟨hn, _⟩ | hn | ⟨_, hcand, _⟩
    · rw [hn] at hrole
      cases hrole
    · rw [hn]
      exact h.leading hlead p hp
    · rw [hn] at hrole
      cases hrole
    · cases hcand.symm.trans hlead
  · rw [hwon]
    refine ⟨n.log.lastIndex + 1, ?_, Nat.le_succ _⟩
    exact if_pos hp

theorem Invariant.startWrite {n : Node} (h : Invariant n .idle) {data : Bytes}
    (hsupplied : Supplied n) {d : Doing} (hturn : Turn n .idle (.startWrite data) d) :
    Invariant (n.act (.startWrite data)) d := by
  have hq := startWrite_quiet n.begin data
  obtain ⟨hnext, hsnap⟩ := startWrite_progress n.begin data
  have hcont := act_contiguous h.contiguous (.startWrite data)
  rw [Node.act] at hcont ⊢
  rcases startWrite_cases n.begin data with ⟨⟨e, herr⟩, hview⟩ | ⟨hrole, hok, hview⟩
  · refine ⟨hcont, ?_, ?_⟩
    · intro hlead p hp
      rw [hq.role] at hlead
      rw [hq.peers] at hp
      rw [hnext, hview]
      exact h.leading hlead p hp
    · rintro index data' rfl
      cases hturn with
      | writeStarted hwrite => cases herr.symm.trans hwrite
  · have hnow : NextWithin (n.begin.startWrite data).2
        ((n.begin.startWrite data).2.log.lastIndex + 1) := by
      intro p hp
      rw [hq.peers] at hp
      rw [hnext, hview, LogView.push_lastIndex]
      exact h.leading hrole p hp
    refine ⟨hcont, ?_, ?_⟩
    · intro _ p hp
      obtain ⟨v, hv, hle⟩ := hnow p hp
      exact ⟨v, hv, Nat.le_succ_of_le hle⟩
    · rintro index data' rfl
      cases hturn with
      | writeStarted hwrite =>
        cases hok.symm.trans hwrite
        refine ⟨hq.role.trans hrole, ?_, hnow, ?_⟩
        · rw [hview, LogView.push_lastIndex]
        · intro hnone p hp v hv
          rw [hsnap] at hnone
          rw [hq.peers] at hp
          rw [hnext] at hv
          rw [hview]
          exact hsupplied hnone p hp v hv

theorem Invariant.finishWrite {n : Node} {index : ℕ} {data : Bytes}
    (h : Invariant n (.writing index data))
    {appends : List (NodeId × Option AppendEntriesResponse)} (hhints : HintsWithin n appends)
    (snapshots : List (NodeId × Option InstallSnapshotResponse)) :
    Invariant (n.act (.finishWrite index appends snapshots)) .idle := by
  obtain ⟨_, hindex, hnow, _⟩ := h.writing index data rfl
  refine ⟨act_contiguous h.contiguous _, ?_, fun index data hd => by cases hd⟩
  intro hrole p hp
  rw [(act_identity n _).2] at hp
  rw [Node.act, finishWrite_eq] at hrole ⊢
  have hrep := finishReplication_untouched n.begin index appends snapshots
  set m := (n.begin.finishReplication index appends snapshots).2 with hm
  set acks := (n.begin.finishReplication index appends snapshots).1
  have hlead : m.role = .leader := (commitWrite_quiet m index acks).role.symm.trans hrole
  have hnext : ∃ v, m.nextIndex p = some v ∧ v ≤ n.log.lastIndex + 2 := by
    apply finishReplication_next (Q := fun v => v ≤ n.log.lastIndex + 2)
    · rw [hindex]
      exact Nat.le_succ _
    · show n.log.snapshotIndex + 1 ≤ n.log.lastIndex + 2
      rw [LogView.lastIndex]
      omega
    · exact hhints
    · obtain ⟨v, hv, hle⟩ := hnow p hp
      exact ⟨v, hv, Nat.le_succ_of_le hle⟩
    · exact hlead
  rcases commitWrite_cases m index acks with ⟨_, hn⟩ | ⟨_, _, _, hkeep, hview | ⟨hi, hview⟩⟩
  · rw [hn, hrep.log]
    exact hnext
  · rw [hkeep, hview, hrep.log]
    exact hnext
  · rw [hkeep, hview, compactTo_lastIndex _ hi, hrep.log]
    obtain ⟨v, hv, hle⟩ := hnext
    exact ⟨v, hv, hle.trans (Nat.add_le_add_right (Nat.le_max_right _ _) 2)⟩

theorem Invariant.act {n : Node} {d d' : Doing} {a : Action} (h : Invariant n d)
    (hturn : Turn n d a d') (hok : supplied.action n a) : Invariant (n.act a) d' := by
  cases hturn with
  | requestVote req => exact h.steady (by simp) (by simp) (by simp) (by simp)
  | appendEntries req => exact h.steady (by simp) (by simp) (by simp) (by simp)
  | installSnapshot req => exact h.steady (by simp) (by simp) (by simp) (by simp)
  | startElection hrole => exact h.steady (by simp) (by simp) (by simp) (by simp)
  | finishElection results => exact h.finishElection results
  | writeRefused hwrite => exact h.startWrite hok (.writeRefused hwrite)
  | writeStarted hwrite => exact h.startWrite hok (.writeStarted hwrite)
  | finishWrite happends hsnapshots => exact h.finishWrite hok _
  | sendHeartbeats hrole => exact h.steady (by simp) (by simp) (by simp) (by simp)
  | finishHeartbeats results => exact h.steady (by simp) (by simp) (by simp) (by simp)
  | clientRead fromIndex => exact h.steady (by simp) (by simp) (by simp) (by simp)

theorem invariant_of_life {id : NodeId} {peers : List NodeId} {s : Stage}
    (life : NodeLife supplied id peers s) : ∀ n d, s = .up n d → Invariant n d := by
  induction life with
  | new hstart =>
    rintro n d ⟨⟩
    obtain ⟨hview, _, _, hn⟩ := start_empty hstart
    apply Invariant.started ?_ hn.role
    rw [hview]
    exact LogView.Contiguous.empty
  | act life hturn hb hok ih =>
    rintro n d ⟨⟩
    exact (ih _ _ rfl).act hturn hok
  | crash => rintro n d ⟨⟩
  | restart life hok hstart ih =>
    rintro n d ⟨⟩
    obtain ⟨log, hopen, hn⟩ := start_cases hstart
    apply Invariant.started ?_ hn.role
    rw [hn.log]
    exact hok log hopen

/-- In the lives in question, whatever a leader sends for a write is well formed. -/
theorem leaders_send_well_formed {id : NodeId} {peers : List NodeId} {n : Node} {index : ℕ}
    {data : Bytes} (life : NodeLife supplied id peers (.up n (.writing index data)))
    {p : NodeId} {req : AppendEntriesRequest} (hcall : (p, req) ∈ n.appendCalls index) :
    WellFormedRequest n req := by
  have h := invariant_of_life life n _ rfl
  obtain ⟨_, _, hnow, hsupplied⟩ := h.writing index data rfl
  exact appendCalls_wellFormed h.contiguous hnow hsupplied hcall

/-- Any runs of the code: a follower's handler makes each reply to an AppendEntries. The
snapshot file may have gone missing, but recovered logs have no gaps. -/
def answered : LifeConditions where
  action n a :=
    match a with
    | .finishWrite index appends _ => ∀ p resp, (p, some resp) ∈ appends →
        ∃ req follower, (p, req) ∈ n.appendCalls index ∧
          resp = (Node.onAppendEntries follower req).1
    | _ => True
  restart img _ := ∀ log, RaftLog.open walConfig img.wal = .ok log → log.toLogView.Contiguous

/-- Two nodes of which this one has had a snapshot installed and has lost the file. -/
theorem life_without_snapshot : ∃ n, NodeLife answered "n1" ["n2"] (.up n .idle) ∧
    n.role = .follower ∧ n.ps.currentTerm = 1 ∧ n.peers = ["n2"] ∧
    n.log.toLogView = ⟨[], 5, 1⟩ ∧ n.snapshot = none ∧ (∃ c, Healthy n.log c) ∧
    n.log.wal.config = walConfig ∧ n.log.wal.nextSequence ≤ 2 := by
  obtain ⟨n, log, hstart, hn, hview, hhealthy, hcfg, hseq⟩ := start_fresh "n1" ["n2"]
  have hterm : n.ps.currentTerm = 0 := by
    rw [hn.ps]
    rfl
  -- the snapshot arrives
  set req : InstallSnapshotRequest := ⟨1, "n2", 5, 1, []⟩ with hreq
  obtain ⟨log₁, hinstall, hview₁, hhealthy₁, hcfg₁, hseq₁⟩ :=
    installSnapshot_spec hhealthy (i := 5) (t := 1) (by rw [hseq]; decide) (by rw [hcfg]; decide)
      (by rw [hview]; decide)
  have hle : n.begin.ps.currentTerm ≤ req.term := by
    rw [show n.begin.ps.currentTerm = 0 from hterm]
    decide
  have hnew : n.begin.log.snapshotIndex < req.lastIncludedIndex := by
    rw [show n.begin.log = log from hn.log, hview]
    decide
  have hinstall' : n.begin.log.installSnapshot req.lastIncludedIndex req.lastIncludedTerm =
      (.ok (), log₁) := by
    rw [show n.begin.log = log from hn.log]
    exact hinstall
  obtain ⟨_, hcur, hlog₁, _⟩ := onInstallSnapshot_ok hle hnew hinstall'
  have hps := onInstallSnapshot_ps n.begin req
  have hfollower := onInstallSnapshot_role n.begin req
  set n₁ := (n.begin.onInstallSnapshot req).2 with hn₁
  have hb : Bounded n (.installSnapshot req) := by
    show n₁.ps.currentTerm < 2 ^ 64
    rw [hcur]
    decide
  have life₁ : NodeLife answered "n1" ["n2"] (.up n₁ .idle) :=
    (NodeLife.new hstart).act (.installSnapshot req) hb trivial
  have hb₁ : Bounded n₁ (.clientRead 0) := by
    show n₁.ps.currentTerm < 2 ^ 64
    rw [hcur]
    decide
  have life₂ : NodeLife answered "n1" ["n2"] (.down n₁.image) :=
    life₁.crash (.clientRead 0) hb₁ trivial (List.mem_singleton_self _)
  -- the restart
  obtain ⟨log₂, hopen, hview₂, hstores₂, hcfg₂, hseq₂⟩ := open_log_spec hhealthy₁.stores
  have hwal : log₁.wal.config = walConfig := hcfg₁.trans hcfg
  have hempty : log₂.toLogView = ⟨[], 5, 1⟩ := by
    rw [hview₂, journalled, survivingRecords, ite_self]
    exact replayRecord_snapshot (by decide) (by decide)
  have hcont : log₂.toLogView.Contiguous := by
    rw [hempty]
    intro k e hk
    cases hk
  rw [hwal, ← hlog₁] at hopen
  obtain ⟨n₂, hstart₂, hn₂⟩ := start_ok "n1" ["n2"] n₁.ps.file none hopen
  have hrestart : answered.restart n₁.image none := by
    intro log' hopen'
    cases hopen.symm.trans hopen'
    exact hcont
  have hhealthy₂ : ∃ c, Healthy n₂.log c := by
    rw [hn₂.log]
    exact ⟨_, hstores₂, hcont⟩
  refine ⟨n₂, life₂.restart hrestart hstart₂, hn₂.role, ?_, hn₂.peers, ?_, hn₂.snapshot,
    hhealthy₂, ?_, ?_⟩
  · have hgt : req.term > n.begin.ps.currentTerm := by
      rw [show n.begin.ps.currentTerm = 0 from hterm]
      decide
    rw [if_pos hgt] at hps
    rw [hn₂.ps, hps]
    have hstored : stored (n.begin.ps.advanceTerm 1).file = (1, none) :=
      stored_advanced (by decide)
    exact congrArg Prod.fst hstored
  · rw [hn₂.log, hempty]
  · rw [hn₂.log]
    exact hcfg₂.trans hwal
  · rw [hn₂.log]
    omega

/-- A node that has never run refuses a request that follows an entry, and asks for the log
from the beginning. -/
theorem fresh_refuses (id : NodeId) (peers : List NodeId) {req : AppendEntriesRequest}
    (hpos : 0 < req.prevLogIndex) :
    ∃ (f : Node) (t : ℕ), (f.onAppendEntries req).1 = ⟨req.term, false, 1, t⟩ := by
  obtain ⟨f, log, _, hf, hview, _⟩ := start_fresh id peers
  have hnone : f.log.termAt req.prevLogIndex = none := by
    rw [hf.log, hview]
    exact termAt_beyond hpos
  have hle : f.ps.currentTerm ≤ req.term := by
    rw [hf.ps]
    exact Nat.zero_le _
  have hrefuse : ¬ (0 < req.prevLogIndex →
      f.log.termAt req.prevLogIndex = some req.prevLogTerm) := by
    rw [hnone]
    simp [hpos]
  obtain ⟨t, hrefused⟩ := onAppendEntries_refused hle hrefuse
  refine ⟨f, t, ?_⟩
  rw [hrefused, hint, hnone, hf.log, hview]
  rfl

/-- The only peer refuses the entries of a write: the leader moves its next index to the hint
and the write has no majority. -/
theorem life_refused {id p : NodeId} {peers : List NodeId} {n : Node} {index next hint t : ℕ}
    {data : Bytes} (life : NodeLife answered id peers (.up n (.writing index data)))
    (hpeers : n.peers = [p]) (hnext : n.nextIndex p = some next)
    (hlag : n.log.snapshotIndex < next ∨ n.snapshot = none)
    (hbound : n.ps.currentTerm < 2 ^ 64) (hhint : 0 < hint) {f : Node}
    (hresp : (f.onAppendEntries (n.buildAppendEntriesFor p index)).1 =
      ⟨n.ps.currentTerm, false, hint, t⟩) :
    NodeLife answered id peers (.up (withProgress n.begin
      (Function.update n.nextIndex p (some hint)) n.matchIndex) .idle) := by
  obtain ⟨hcalls, hnocalls⟩ := appendCalls_single hpeers hnext hlag index
  set resp : AppendEntriesResponse := ⟨n.ps.currentTerm, false, hint, t⟩ with hr
  have hok : answered.action n (.finishWrite index [(p, some resp)] []) := by
    intro q resp' hmem
    obtain ⟨rfl, hsome⟩ := Prod.mk.inj (List.mem_singleton.mp hmem)
    cases hsome
    exact ⟨_, f, by rw [hcalls]; exact List.mem_singleton_self _, hresp.symm⟩
  have hact : n.act (.finishWrite index [(p, some resp)] []) =
      withProgress n.begin (Function.update n.nextIndex p (some hint)) n.matchIndex := by
    have hle : resp.term ≤ n.begin.ps.currentTerm := Nat.le_refl _
    have hfew : 1 < (withProgress n.begin (Function.update n.nextIndex p (some hint))
        n.matchIndex).quorum := by
      show 1 < (n.peers.length + 1) / 2 + 1
      rw [hpeers, List.length_singleton]
      decide
    rw [Node.act, finishWrite_eq, countAppends_refused hle rfl hhint]
    exact congrArg Prod.snd (if_pos hfew)
  have hb : Bounded n (.finishWrite index [(p, some resp)] []) := by
    rw [Bounded, hact]
    exact hbound
  have life := life.act (.finishWrite (by rw [hcalls]; rfl) (by rw [hnocalls]; rfl)) hb hok
  rwa [hact] at life

/-- The call to the only peer is lost, and the write has no majority. -/
theorem life_lost {ok : LifeConditions} {id p : NodeId} {peers : List NodeId} {n : Node}
    {index next : ℕ} {data : Bytes}
    (life : NodeLife ok id peers (.up n (.writing index data))) (hpeers : n.peers = [p])
    (hnext : n.nextIndex p = some next)
    (hlag : n.log.snapshotIndex < next ∨ n.snapshot = none)
    (hbound : n.ps.currentTerm < 2 ^ 64)
    (hok : ok.action n (.finishWrite index [(p, none)] [])) :
    NodeLife ok id peers (.up n.begin .idle) := by
  obtain ⟨hcalls, hnocalls⟩ := appendCalls_single hpeers hnext hlag index
  have hact : n.act (.finishWrite index [(p, none)] []) = n.begin := by
    have hfew : 1 < n.begin.quorum := by
      show 1 < (n.peers.length + 1) / 2 + 1
      rw [hpeers, List.length_singleton]
      decide
    rw [Node.act, finishWrite_eq]
    exact congrArg Prod.snd (if_pos hfew)
  have hb : Bounded n (.finishWrite index [(p, none)] []) := by
    rw [Bounded, hact]
    exact hbound
  have life := life.act (.finishWrite (by rw [hcalls]; rfl) (by rw [hnocalls]; rfl)) hb hok
  rwa [hact] at life

omit [Crc32] in
theorem supplied_single {n : Node} {p : NodeId} {next : ℕ} (hpeers : n.peers = [p])
    (hnext : n.nextIndex p = some next) (hlow : n.log.snapshotIndex < next) : Supplied n := by
  intro _ q hq v hv
  rw [hpeers, List.mem_singleton] at hq
  subst hq
  cases hnext.symm.trans hv
  exact hlow

/-- A follower with an entry of term 1 is elected in term 2. -/
theorem life_elected_follower {ok : LifeConditions}
    (happend : ∀ n, ok.action n (.appendEntries ⟨1, "n2", 0, 0, [⟨1, 1, [4]⟩], 0⟩))
    (hstart : ∀ n, ok.action n .startElection)
    (hfinish : ∀ n, ok.action n (.finishElection [some ⟨2, true⟩])) :
    ∃ n, NodeLife ok "n1" ["n2"] (.up n .idle) ∧ n.role = .leader ∧ n.ps.currentTerm = 2 ∧
      n.peers = ["n2"] ∧ n.nextIndex "n2" = some 2 ∧
      n.log.toLogView = ⟨[⟨1, 1, [4]⟩], 0, 0⟩ ∧ (∃ c, Healthy n.log c) ∧
      n.log.wal.config = walConfig ∧ n.log.wal.nextSequence + 2 < 2 ^ 64 := by
  obtain ⟨n, log, hnew, hn, hview, hhealthy, hcfg, hseq⟩ := start_fresh "n1" ["n2"]
  set req : AppendEntriesRequest := ⟨1, "n2", 0, 0, [⟨1, 1, [4]⟩], 0⟩ with hreq
  set rest : List LogEntry := List.replicate 2 ⟨1, 1, [4]⟩ with hrest
  have htakes : Takes n.begin (req.entries ++ rest) := by
    refine ⟨⟨_, hn.log ▸ hhealthy⟩, ?_, ?_, by simp [hreq, hrest, fitsSegment_byte]⟩
    · show n.log.wal.config = walConfig
      rw [hn.log]
      exact hcfg
    · show n.log.wal.nextSequence + 2 * 3 ≤ 2 ^ 64
      rw [hn.log, hseq]
      decide
  have hpass : Passes n.begin req := by
    refine ⟨?_, fun h => absurd h (lt_irrefl 0)⟩
    show n.ps.currentTerm ≤ 1
    rw [hn.ps]
    decide
  have hstored := (onAppendEntries_view htakes.front).2.1 hpass
  have hafter := onAppendEntries_takes htakes
  have hps := onAppendEntries_ps n.begin req
  have hrole := onAppendEntries_role n.begin req
  have hpeers : (n.begin.onAppendEntries req).2.peers = ["n2"] :=
    (onAppendEntries_identity n.begin req).2.trans hn.peers
  set m := (n.begin.onAppendEntries req).2 with hm
  have hzero : n.begin.ps.currentTerm = 0 := congrArg PersistentState.currentTerm hn.ps
  rw [hzero] at hps hrole
  have hterm : m.ps.currentTerm = 1 := congrArg PersistentState.currentTerm hps
  have hfollows : m.role = .follower := hrole
  have hb : Bounded n (.appendEntries req) := by
    show m.ps.currentTerm < 2 ^ 64
    rw [hterm]
    decide
  have life : NodeLife ok "n1" ["n2"] (.up m .idle) :=
    (NodeLife.new hnew).act (.appendEntries req) hb (happend n)
  have hterms : ∀ r, some r ∈ [some (⟨2, true⟩ : RequestVoteResponse)] →
      r.term ≤ m.ps.currentTerm + 1 := by
    simp [hterm]
  obtain ⟨x, life, hx⟩ := life_elected life (by rw [hfollows]; decide) (by rw [hterm]; decide)
    hterms (by rw [Node.quorum, Node.clusterSize, hpeers]; decide) (hstart _) (hfinish _)
  have hlog : x.log = m.log := hx.untouched.log
  have hview' : m.log.toLogView = ⟨[⟨1, 1, [4]⟩], 0, 0⟩ := by
    rw [hstored, show n.begin.log.toLogView = LogView.empty from hn.log ▸ hview]
    rfl
  refine ⟨x, life, hx.role, hx.term.trans (by rw [hterm]), hx.peers.trans hpeers, ?_, ?_, ?_, ?_,
    ?_⟩
  · rw [hx.next "n2" (by rw [hpeers]; exact List.mem_singleton_self _), hview']
    rfl
  · rw [hlog, hview']
  · rw [hlog]
    exact hafter.healthy
  · rw [hlog]
    exact hafter.config
  · have hroom := hafter.room
    rw [hrest, List.length_replicate] at hroom
    rw [hlog]
    omega

end

/-- A peer that lags: the call for the leader's first write was lost. -/
theorem leaders_send_well_formed_lagging :
    ∃ (n : Node) (req : AppendEntriesRequest),
      @NodeLife ieee (@supplied ieee) "n1" ["n2"] (.up n (.writing 3 [6])) ∧
      ("n2", req) ∈ n.appendCalls 3 ∧ req.prevLogIndex = 1 ∧
      req.entries = [⟨2, 2, [5]⟩, ⟨2, 3, [6]⟩] ∧ WellFormedRequest n req := by
  let _ : Crc32 := ieee
  have hstart : ∀ n, supplied.action n .startElection := fun _ => trivial
  obtain ⟨x, life, hrole, hterm, hpeers, hnext, hview, hhealthy, hcfg, hseq⟩ :=
    life_elected_follower (fun _ => trivial) hstart (fun _ => trivial)
  have hsupplied : Supplied x := supplied_single hpeers hnext (by rw [hview]; decide)
  obtain ⟨w, life, hw⟩ := life_writing life hrole hhealthy hcfg (by omega) (fitsSegment_byte 5)
    (by rw [hterm]; decide) hsupplied
  obtain ⟨log, trail, hwnode⟩ := hw.node
  have hwview : w.log.toLogView = ⟨[⟨1, 1, [4]⟩, ⟨2, 2, [5]⟩], 0, 0⟩ := by
    rw [hw.view, hview, hterm]
    rfl
  have hwpeers : w.peers = ["n2"] := by
    rw [hwnode]
    exact hpeers
  have hwnext : w.nextIndex "n2" = some 2 := by
    rw [hwnode]
    exact hnext
  have hwterm : w.ps.currentTerm = 2 := by
    rw [hwnode]
    exact hterm
  have hlow : w.log.snapshotIndex < 2 := by
    rw [hwview]
    decide
  have life := life_lost life hwpeers hwnext (Or.inl hlow) (by rw [hwterm]; decide)
    (by simp [supplied, HintsWithin])
  -- the next write
  have hwrole : w.begin.role = .leader := by
    show w.role = .leader
    rw [hwnode]
    exact hrole
  obtain ⟨y, life, hy⟩ := life_writing life hwrole hw.healthy hw.config
    (by show w.log.wal.nextSequence < 2 ^ 64; rw [hw.sequence]; omega) (fitsSegment_byte 6)
    (by rw [show w.begin.ps.currentTerm = 2 from hwterm]; decide)
    (supplied_single (n := w.begin) hwpeers hwnext hlow)
  obtain ⟨log', trail', hynode⟩ := hy.node
  have hyview : y.log.toLogView = ⟨[⟨1, 1, [4]⟩, ⟨2, 2, [5]⟩, ⟨2, 3, [6]⟩], 0, 0⟩ := by
    rw [hy.view, show w.begin.log.toLogView = _ from hwview,
      show w.begin.ps.currentTerm = 2 from hwterm]
    rfl
  have hynext : y.nextIndex "n2" = some 2 := by
    rw [hynode]
    exact hwnext
  have hindex : w.begin.log.lastIndex + 1 = 3 := by
    rw [show w.begin.log.toLogView = _ from hwview]
    rfl
  rw [hindex] at life
  have hcall : ("n2", y.buildAppendEntriesFor "n2" 3) ∈ y.appendCalls 3 := by
    rw [(appendCalls_single (n := y) (by rw [hynode]; exact hwpeers) hynext
      (Or.inl (by rw [hyview]; decide)) 3).1]
    exact List.mem_singleton_self _
  refine ⟨y, _, life, hcall, ?_, ?_, leaders_send_well_formed life hcall⟩
  · rw [Node.buildAppendEntriesFor, hynext]
    rfl
  · rw [Node.buildAppendEntriesFor, hynext, hyview]
    rfl

/-- The follower's first index is compacted and there is no snapshot to send: the request
claims to start at the beginning and carries the entries from 6 on. -/
theorem malformed_request :
    ¬ ∀ (id : NodeId) (peers : List NodeId) (n : Node) (index : ℕ) (data : Bytes),
      @NodeLife ieee (@answered ieee) id peers (.up n (.writing index data)) →
      ∀ p req, (p, req) ∈ n.appendCalls index → WellFormedRequest n req := by
  intro hclaim
  let _ : Crc32 := ieee
  obtain ⟨n, life, hrole, hterm, hpeers, hview, hsnap, hhealthy, hcfg, hseq⟩ :=
    life_without_snapshot
  -- the node is elected
  have hterms : ∀ r, some r ∈ [some (⟨2, true⟩ : RequestVoteResponse)] →
      r.term ≤ n.ps.currentTerm + 1 := by
    simp [hterm]
  obtain ⟨m, life, hm⟩ := life_elected life (by rw [hrole]; decide) (by rw [hterm]; decide)
    hterms (by rw [Node.quorum, Node.clusterSize, hpeers]; decide) trivial trivial
  have hlog := hm.untouched.log
  have hlast : m.log.lastIndex = 5 := by
    rw [hlog, hview]
    rfl
  obtain ⟨w, life, hw⟩ := life_writing life hm.role (hlog ▸ hhealthy) (hlog ▸ hcfg)
    (by rw [hlog]; omega) (fitsSegment_byte 7) (by rw [hm.term, hterm]; decide) trivial
  obtain ⟨log', trail, hnode⟩ := hw.node
  have hwview : w.log.toLogView = ⟨[⟨2, 6, [7]⟩], 5, 1⟩ := by
    rw [hw.view, hlog, hview, hm.term, hterm]
    rfl
  have hwpeers : w.peers = ["n2"] := by
    rw [hnode]
    exact hm.peers.trans hpeers
  have hwnext : w.nextIndex "n2" = some 6 := by
    have := hm.next "n2" (by rw [hpeers]; exact List.mem_singleton_self _)
    rw [hnode]
    rw [hview] at this
    exact this
  have hwterm : w.ps.currentTerm = 2 := by
    rw [hnode]
    exact hm.term.trans (by rw [hterm])
  rw [hlast] at life
  -- the peer has an empty log
  have hprev : (w.buildAppendEntriesFor "n2" 6).prevLogIndex = 5 := by
    rw [Node.buildAppendEntriesFor, hwnext]
    rfl
  have hpos : 0 < (w.buildAppendEntriesFor "n2" 6).prevLogIndex := by
    rw [hprev]
    decide
  obtain ⟨f, t, hresp⟩ := fresh_refuses "n2" ["n1"] hpos
  have life := life_refused life hwpeers hwnext (Or.inl (by rw [hwview]; decide))
    (by rw [hwterm]; decide) Nat.one_pos hresp
  -- the next write
  set x := withProgress w.begin (Function.update w.nextIndex "n2" (some 1)) w.matchIndex with hx
  have hxlog : x.log = w.log := rfl
  have hxrole : x.role = .leader := by
    show w.role = .leader
    rw [hnode]
    exact hm.role
  obtain ⟨y, life, hy⟩ := life_writing life hxrole hw.healthy hw.config
    (by rw [hxlog, hw.sequence, hlog]; omega) (fitsSegment_byte 7)
    (by rw [show x.ps.currentTerm = 2 from hwterm]; decide) trivial
  obtain ⟨ylog, ytrail, hynode⟩ := hy.node
  have hyview : y.log.toLogView = ⟨[⟨2, 6, [7]⟩, ⟨2, 7, [7]⟩], 5, 1⟩ := by
    rw [hy.view, hxlog, hwview, show x.ps.currentTerm = 2 from hwterm]
    rfl
  have hynext : y.nextIndex "n2" = some 1 := by
    rw [hynode]
    exact Function.update_self "n2" (some 1) w.nextIndex
  have hysnap : y.snapshot = none := by
    rw [hynode]
    show w.snapshot = none
    rw [hnode]
    exact hm.untouched.snapshot.trans hsnap
  have hypeers : y.peers = ["n2"] := by
    rw [hynode]
    exact hwpeers
  have hbad := hclaim _ _ y _ _ life "n2" (y.buildAppendEntriesFor "n2" 7) (by
    rw [hxlog, hwview, (appendCalls_single hypeers hynext (Or.inr hysnap) _).1]
    exact List.mem_singleton_self _)
  have hfirst := hbad.entries 0 ⟨2, 6, [7]⟩ (by
    rw [Node.buildAppendEntriesFor, hynext, hyview]
    rfl)
  rw [Node.buildAppendEntriesFor, hynext] at hfirst
  cases hfirst

end RaftNodeRequests
