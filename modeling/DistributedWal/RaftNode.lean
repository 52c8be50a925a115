import DistributedWal.ReplicatedLogContents
import DistributedWal.RaftPersistentState
import DistributedWal.RaftSnapshot

/-! # The Raft node

The handlers of the actor as functions on its state. A handler that awaits its peers is
split there: the first half ends with the calls it makes, the second half starts from
the results. Timers are not modelled: an election timeout may fire at any time.

`trail` is a history variable: the files after every effect of the running handler,
which is what a crash in the middle of it leaves.
-/
namespace RaftNode

open LittleEndianCodec WalEntry WalSegment WalEngine ReplicatedLog ReplicatedLogContents
open RaftPersistentState RaftSnapshot

structure AppendEntriesRequest where
  term : ℕ
  leaderId : NodeId
  prevLogIndex : ℕ
  prevLogTerm : ℕ
  entries : List LogEntry
  leaderCommit : ℕ
  deriving DecidableEq

structure AppendEntriesResponse where
  term : ℕ
  success : Bool
  conflictIndex : ℕ
  conflictTerm : ℕ
  deriving DecidableEq

structure RequestVoteRequest where
  term : ℕ
  candidateId : NodeId
  lastLogIndex : ℕ
  lastLogTerm : ℕ
  deriving DecidableEq

structure RequestVoteResponse where
  term : ℕ
  voteGranted : Bool
  deriving DecidableEq

structure InstallSnapshotRequest where
  term : ℕ
  leaderId : NodeId
  lastIncludedIndex : ℕ
  lastIncludedTerm : ℕ
  data : Bytes
  deriving DecidableEq

structure InstallSnapshotResponse where
  term : ℕ
  success : Bool
  deriving DecidableEq

inductive Role where
  | follower
  | candidate
  | leader
  deriving DecidableEq

inductive RaftError where
  | notLeader (hint : Option NodeId)
  | quorumNotReached
  | wal (e : WalError)
  deriving DecidableEq

/-- The files of a node, and the log that the operations begun so far make. -/
structure Image where
  stateFile : Option Bytes
  wal : Dir
  snapshotFile : Option Bytes
  view : LogView

structure Node where
  id : NodeId
  peers : List NodeId
  ps : PersistentState
  log : RaftLog
  role : Role
  commitIndex : ℕ
  currentLeader : Option NodeId
  nextIndex : NodeId → Option ℕ
  matchIndex : NodeId → Option ℕ
  snapshot : Option Snapshot
  snapshotTrigger : ℕ
  entriesSinceSnapshot : ℕ
  snapshotFile : Option Bytes
  trail : List Image

def Node.clusterSize (n : Node) : ℕ := n.peers.length + 1

/-- Minimum votes needed to win an election or commit an entry. -/
def Node.quorum (n : Node) : ℕ := n.clusterSize / 2 + 1

def Node.image (n : Node) : Image :=
  ⟨n.ps.file, n.log.wal.dir, n.snapshotFile, n.log.toLogView⟩

def Node.mark (n : Node) : Node := { n with trail := n.trail ++ [n.image] }

/-- A handler begins. -/
def Node.begin (n : Node) : Node := { n with trail := [n.image] }

def Node.advanceTerm (n : Node) (newTerm : ℕ) : Node :=
  { n with ps := n.ps.advanceTerm newTerm }.mark

def Node.recordVote (n : Node) (candidate : NodeId) : Node :=
  { n with ps := n.ps.recordVote candidate }.mark

def Node.saveSnapshot (n : Node) (s : Snapshot) : Node :=
  { n with snapshotFile := some s.fileBytes }.mark

def Node.becomeFollowerWithLeader (n : Node) (leader : Option NodeId) : Node :=
  { n with
    role := .follower
    currentLeader := match leader with
      | some l => some l
      | none => n.currentLeader }

/-- A response with a higher term makes the caller step down. -/
def Node.stepDown (n : Node) (term : ℕ) : Node :=
  (n.advanceTerm term).becomeFollowerWithLeader none

def Node.becomeLeader (n : Node) : Node :=
  let next := n.log.lastIndex + 1
  { n with
    role := .leader
    currentLeader := some n.id
    nextIndex := fun p => if p ∈ n.peers then some next else n.nextIndex p
    matchIndex := fun p => if p ∈ n.peers then some 0 else n.matchIndex p }

def Node.aeReject (n : Node) (conflictIndex conflictTerm : ℕ) : AppendEntriesResponse :=
  ⟨n.ps.currentTerm, false, conflictIndex, conflictTerm⟩

/-- The prologue that `on_append_entries` and `on_install_snapshot` share. -/
def Node.acceptLeader (n : Node) (term : ℕ) (leader : NodeId) : Node :=
  let n := if term > n.ps.currentTerm then n.advanceTerm term else n
  n.becomeFollowerWithLeader (some leader)

section

variable [Crc32]

def Node.appendLog (n : Node) (term : ℕ) (data : Bytes) : Except WalError ℕ × Node :=
  let (result, log) := n.log.append term data
  (result, { n with log := log }.mark)

def Node.truncateLog (n : Node) (fromIndex : ℕ) : Node :=
  { n with log := (n.log.truncateFrom fromIndex).2 }.mark

/-- Images of the effects inside a compaction or an installation that ends in `view`. -/
def Node.journalTrail (n : Node) (lastIndex lastTerm : ℕ) (view : LogView) : List Image :=
  if lastIndex ≤ n.log.snapshotIndex then []
  else
    (journalImages n.log.wal lastIndex lastTerm).map
      (fun d => ⟨n.ps.file, d, n.snapshotFile, view⟩)

def Node.compactLog (n : Node) (lastIndex lastTerm : ℕ) : Except WalError Unit × Node :=
  let (result, log) := n.log.compact lastIndex lastTerm
  (result, { n with
    log := log
    trail := n.trail ++ n.journalTrail lastIndex lastTerm log.toLogView }.mark)

def Node.installLog (n : Node) (lastIndex lastTerm : ℕ) : Except WalError Unit × Node :=
  let (result, log) := n.log.installSnapshot lastIndex lastTerm
  (result, { n with
    log := log
    trail := n.trail ++ n.journalTrail lastIndex lastTerm log.toLogView }.mark)

/-- The WAL configuration that `start` uses. -/
def walConfig : WalConfig := ⟨64 * 1024 * 1024, true⟩

def Node.start (id : NodeId) (peers : List NodeId) (stateFile : Option Bytes) (wal : Dir)
    (snapshotFile : Option Bytes) : Except WalError Node :=
  match RaftLog.open walConfig wal with
  | .error e => .error e
  | .ok log =>
    let snapshot := match Snapshot.load snapshotFile with
      | .ok s => s
      | .error _ => none
    .ok {
      id := id
      peers := peers
      ps := PersistentState.open stateFile
      log := log
      role := .follower
      commitIndex := 0
      currentLeader := none
      nextIndex := fun _ => none
      matchIndex := fun _ => none
      snapshot := snapshot
      snapshotTrigger := 100
      entriesSinceSnapshot := 0
      snapshotFile := snapshotFile
      trail := [] }

/-- Rule 4 for one entry of the request. -/
def Node.storeEntry (n : Node) (e : LogEntry) : Node :=
  match n.log.termAt e.index with
  | some t =>
    if t = e.term then n
    else ((n.truncateLog e.index).appendLog e.term e.data).2
  | none => (n.appendLog e.term e.data).2

def Node.storeEntries (n : Node) (entries : List LogEntry) : Node :=
  entries.foldl Node.storeEntry n

/-- Rule 3: the rejection, when the log does not match at `prev_log_index`. -/
def Node.checkPrevious (n : Node) (req : AppendEntriesRequest) :
    Option AppendEntriesResponse :=
  if req.prevLogIndex > 0 then
    match n.log.termAt req.prevLogIndex with
    | none => some (n.aeReject (n.log.lastIndex + 1) 0)
    | some t =>
      if t ≠ req.prevLogTerm then
        some (n.aeReject ((n.log.firstIndexOfTerm t).getD req.prevLogIndex) t)
      else none
  else none

def Node.onAppendEntries (n : Node) (req : AppendEntriesRequest) :
    AppendEntriesResponse × Node :=
  if req.term < n.ps.currentTerm then (n.aeReject 0 0, n)
  else
    let n := n.acceptLeader req.term req.leaderId
    match n.checkPrevious req with
    | some rejection => (rejection, n)
    | none =>
      let n := n.storeEntries req.entries
      let n :=
        if req.leaderCommit > n.commitIndex then
          { n with commitIndex := min req.leaderCommit n.log.lastIndex }
        else n
      (⟨n.ps.currentTerm, true, 0, 0⟩, n)

/-- Log up-to-date check (§5.4.1). -/
def Node.logOk (n : Node) (req : RequestVoteRequest) : Bool :=
  req.lastLogTerm > n.log.lastTerm ||
    (req.lastLogTerm = n.log.lastTerm && req.lastLogIndex ≥ n.log.lastIndex)

def Node.alreadyVotedForOther (n : Node) (candidate : NodeId) : Bool :=
  match n.ps.votedFor with
  | some v => v ≠ candidate
  | none => false

def Node.onRequestVote (n : Node) (req : RequestVoteRequest) : RequestVoteResponse × Node :=
  let n :=
    if req.term > n.ps.currentTerm then
      { n.advanceTerm req.term with role := .follower }
    else n
  if req.term < n.ps.currentTerm then (⟨n.ps.currentTerm, false⟩, n)
  else if n.alreadyVotedForOther req.candidateId then (⟨n.ps.currentTerm, false⟩, n)
  else if ¬ n.logOk req then (⟨n.ps.currentTerm, false⟩, n)
  else
    let n := n.recordVote req.candidateId
    (⟨n.ps.currentTerm, true⟩, n)

def Node.onInstallSnapshot (n : Node) (req : InstallSnapshotRequest) :
    InstallSnapshotResponse × Node :=
  if req.term < n.ps.currentTerm then (⟨n.ps.currentTerm, false⟩, n)
  else
    let n := n.acceptLeader req.term req.leaderId
    if req.lastIncludedIndex ≤ n.log.snapshotIndex then (⟨n.ps.currentTerm, true⟩, n)
    else
      let snap : Snapshot := ⟨req.lastIncludedIndex, req.lastIncludedTerm, req.data⟩
      let n := n.saveSnapshot snap
      match n.installLog req.lastIncludedIndex req.lastIncludedTerm with
      | (.error _, n) => (⟨n.ps.currentTerm, false⟩, n)
      | (.ok _, n) =>
        (⟨n.ps.currentTerm, true⟩, { n with
          commitIndex := max n.commitIndex req.lastIncludedIndex
          entriesSinceSnapshot := 0
          snapshot := some snap })

/-- `start_election` up to the calls: the request that goes to every peer. -/
def Node.startElection (n : Node) : RequestVoteRequest × Node :=
  let newTerm := n.ps.currentTerm + 1
  let n := n.advanceTerm newTerm
  let n := n.recordVote n.id
  let n := { n with role := .candidate }
  (⟨newTerm, n.id, n.log.lastIndex, n.log.lastTerm⟩, n)

/-- The loop over the results: the votes, or the node that stepped down. -/
def Node.countVotes (n : Node) : ℕ → List (Option RequestVoteResponse) → Except Node ℕ
  | votes, [] => .ok votes
  | votes, none :: results => n.countVotes votes results
  | votes, some resp :: results =>
    if resp.term > n.ps.currentTerm then .error (n.stepDown resp.term)
    else n.countVotes (if resp.voteGranted then votes + 1 else votes) results

/-- `start_election` from the results on. -/
def Node.finishElection (n : Node) (results : List (Option RequestVoteResponse)) : Node :=
  match n.countVotes 1 results with
  | .error n => n
  | .ok votes =>
    if n.role ≠ .candidate then n
    else if votes ≥ n.quorum then n.becomeLeader
    else { n with role := .follower }

def Node.buildAppendEntriesFor (n : Node) (peer : NodeId) (upToIndex : ℕ) :
    AppendEntriesRequest :=
  let next := (n.nextIndex peer).getD (upToIndex + 1)
  let prevLogIndex := next - 1
  { term := n.ps.currentTerm
    leaderId := n.id
    prevLogIndex := prevLogIndex
    prevLogTerm := (n.log.termAt prevLogIndex).getD 0
    entries := (n.log.entriesFrom next).filter (fun e => e.index ≤ upToIndex)
    leaderCommit := n.commitIndex }

/-- The snapshot that goes to a peer instead of entries: the peer lags behind the log
and there is a snapshot. -/
def Node.snapshotFor (n : Node) (peer : NodeId) (upToIndex : ℕ) :
    Option InstallSnapshotRequest :=
  if (n.nextIndex peer).getD (upToIndex + 1) ≤ n.log.snapshotIndex then
    n.snapshot.map fun snap =>
      { term := n.ps.currentTerm
        leaderId := n.id
        lastIncludedIndex := snap.lastIncludedIndex
        lastIncludedTerm := snap.lastIncludedTerm
        data := snap.data }
  else none

def Node.appendCalls (n : Node) (upToIndex : ℕ) : List (NodeId × AppendEntriesRequest) :=
  (n.peers.filter (fun p => (n.snapshotFor p upToIndex).isNone)).map
    (fun p => (p, n.buildAppendEntriesFor p upToIndex))

def Node.snapshotCalls (n : Node) (upToIndex : ℕ) : List (NodeId × InstallSnapshotRequest) :=
  n.peers.filterMap (fun p => (n.snapshotFor p upToIndex).map (fun req => (p, req)))

/-- `on_client_write` up to the replication: the index of the new entry. -/
def Node.startWrite (n : Node) (data : Bytes) : Except RaftError ℕ × Node :=
  if n.role ≠ .leader then (.error (.notLeader n.currentLeader), n)
  else
    match n.appendLog n.ps.currentTerm data with
    | (.error e, n) => (.error (.wal e), n)
    | (.ok index, n) => (.ok index, n)

/-- The AppendEntries results: the acks and the node, `error` for an early return. A
failed call counts as a rejection of term 0. -/
def Node.countAppends (n : Node) (upToIndex : ℕ) :
    ℕ → List (NodeId × Option AppendEntriesResponse) → Except (ℕ × Node) (ℕ × Node)
  | acks, [] => .ok (acks, n)
  | acks, (peer, result) :: results =>
    let resp := result.getD ⟨0, false, 0, 0⟩
    if resp.term > n.ps.currentTerm then .error (acks, n.stepDown resp.term)
    else if resp.success then
      Node.countAppends
        { n with
          matchIndex := Function.update n.matchIndex peer (some upToIndex)
          nextIndex := Function.update n.nextIndex peer (some (upToIndex + 1)) }
        upToIndex (acks + 1) results
    else if resp.conflictIndex > 0 then
      Node.countAppends
        { n with nextIndex := Function.update n.nextIndex peer (some resp.conflictIndex) }
        upToIndex acks results
    else n.countAppends upToIndex acks results

/-- The InstallSnapshot results. -/
def Node.countSnapshots (n : Node) :
    ℕ → List (NodeId × Option InstallSnapshotResponse) → ℕ × Node
  | acks, [] => (acks, n)
  | acks, (_, none) :: results => n.countSnapshots acks results
  | acks, (peer, some resp) :: results =>
    if resp.term > n.ps.currentTerm then (acks, n.stepDown resp.term)
    else if resp.success then
      let snapIdx := n.log.snapshotIndex
      Node.countSnapshots
        { n with
          matchIndex := Function.update n.matchIndex peer (some snapIdx)
          nextIndex := Function.update n.nextIndex peer (some (snapIdx + 1)) }
        (acks + 1) results
    else n.countSnapshots acks results

/-- `replicate_to_peers` from the results on: total acks, self included. -/
def Node.finishReplication (n : Node) (upToIndex : ℕ)
    (appends : List (NodeId × Option AppendEntriesResponse))
    (snapshots : List (NodeId × Option InstallSnapshotResponse)) : ℕ × Node :=
  match n.countAppends upToIndex 1 appends with
  | .error (acks, n) => (acks, n)
  | .ok (acks, n) => n.countSnapshots acks snapshots

def Node.takeSnapshot (n : Node) : Except WalError Unit × Node :=
  let lastIndex := n.commitIndex
  if lastIndex = 0 then (.ok (), n)
  else
    let lastTerm := (n.log.termAt lastIndex).getD n.log.snapshotTerm
    let committed := (n.log.entriesFrom (n.log.snapshotIndex + 1)).filter
      (fun e => e.index ≤ lastIndex)
    let snap : Snapshot := ⟨lastIndex, lastTerm, encodeEntries committed⟩
    let n := n.saveSnapshot snap
    match n.compactLog lastIndex lastTerm with
    | (.error e, n) => (.error e, n)
    | (.ok _, n) => (.ok (), { n with entriesSinceSnapshot := 0, snapshot := some snap })

/-- `on_client_write` from the acks on. A failed snapshot is only logged. -/
def Node.commitWrite (n : Node) (index acks : ℕ) : Except RaftError ℕ × Node :=
  if acks < n.quorum then (.error .quorumNotReached, n)
  else
    let n := { n with
      commitIndex := index
      entriesSinceSnapshot := n.entriesSinceSnapshot + 1 }
    let n := if n.entriesSinceSnapshot ≥ n.snapshotTrigger then n.takeSnapshot.2 else n
    (.ok index, n)

def Node.finishWrite (n : Node) (index : ℕ)
    (appends : List (NodeId × Option AppendEntriesResponse))
    (snapshots : List (NodeId × Option InstallSnapshotResponse)) :
    Except RaftError ℕ × Node :=
  let (acks, n) := n.finishReplication index appends snapshots
  n.commitWrite index acks

def Node.heartbeat (n : Node) : AppendEntriesRequest :=
  { term := n.ps.currentTerm
    leaderId := n.id
    prevLogIndex := n.log.lastIndex
    prevLogTerm := n.log.lastTerm
    entries := []
    leaderCommit := n.commitIndex }

def Node.finishHeartbeats (n : Node) : List (Option AppendEntriesResponse) → Node
  | [] => n
  | none :: results => n.finishHeartbeats results
  | some resp :: results =>
    if resp.term > n.ps.currentTerm then n.stepDown resp.term
    else n.finishHeartbeats results

def Node.clientRead (n : Node) (fromIndex : ℕ) : List LogEntry := n.log.entriesFrom fromIndex

/-- What the event loop can run: a message, a timeout, or the rest of a handler whose
calls have come back. -/
inductive Action where
  | requestVote (req : RequestVoteRequest)
  | appendEntries (req : AppendEntriesRequest)
  | installSnapshot (req : InstallSnapshotRequest)
  | startElection
  | finishElection (results : List (Option RequestVoteResponse))
  | startWrite (data : Bytes)
  | finishWrite (index : ℕ) (appends : List (NodeId × Option AppendEntriesResponse))
      (snapshots : List (NodeId × Option InstallSnapshotResponse))
  | sendHeartbeats
  | finishHeartbeats (results : List (Option AppendEntriesResponse))
  | clientRead (fromIndex : ℕ)

/-- The node after the action. -/
def Node.act (n : Node) : Action → Node
  | .requestVote req => (n.begin.onRequestVote req).2
  | .appendEntries req => (n.begin.onAppendEntries req).2
  | .installSnapshot req => (n.begin.onInstallSnapshot req).2
  | .startElection => n.begin.startElection.2
  | .finishElection results => n.begin.finishElection results
  | .startWrite data => (n.begin.startWrite data).2
  | .finishWrite index appends snapshots => (n.begin.finishWrite index appends snapshots).2
  | .sendHeartbeats => n.begin
  | .finishHeartbeats results => n.begin.finishHeartbeats results
  | .clientRead _ => n.begin

end

end RaftNode
