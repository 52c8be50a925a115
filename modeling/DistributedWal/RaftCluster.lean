import DistributedWal.RaftNodeVotes

/-! # The cluster

The members run the node model and talk through calls. A call is delivered at any time
after it was made, perhaps never and perhaps more than once; its reply reaches the caller
or is lost. A caller that waits for its peers handles nothing else. Any process may crash,
also in the middle of a handler, and starts again from its files.
-/
namespace RaftCluster

open LittleEndianCodec WalSegment ReplicatedLog RaftPersistentState RaftSnapshot RaftNode
open WalEntry (Crc32 ieee)
open RaftNodeVotes

/-- The members, each with exactly the other members as its peers. -/
structure Cluster where
  members : List NodeId
  peers : NodeId → List NodeId
  nonempty : ∀ id ∈ members, id ≠ ""
  members_nodup : members.Nodup
  peers_nodup : ∀ id ∈ members, (peers id).Nodup
  mem_peers : ∀ id ∈ members, ∀ p, p ∈ peers id ↔ p ∈ members ∧ p ≠ id

/-- The cluster in which everyone lists everyone else. -/
def Cluster.mesh (members : List NodeId) (hne : ∀ id ∈ members, id ≠ "")
    (hnodup : members.Nodup) : Cluster where
  members := members
  peers id := members.filter (fun p => p ≠ id)
  nonempty := hne
  members_nodup := hnodup
  peers_nodup _ _ := hnodup.filter _
  mem_peers id _ p := by simp

inductive Request where
  | appendEntries (req : AppendEntriesRequest)
  | requestVote (req : RequestVoteRequest)
  | installSnapshot (req : InstallSnapshotRequest)

inductive Response where
  | appendEntries (resp : AppendEntriesResponse)
  | requestVote (resp : RequestVoteResponse)
  | installSnapshot (resp : InstallSnapshotResponse)

structure Call where
  source : NodeId
  target : NodeId
  request : Request

/-- What a process waits for, with the number of the first call it made for it. -/
inductive Waiting where
  | election (first : ℕ)
  | write (index : ℕ) (data : Bytes) (first : ℕ)
  | heartbeats (first : ℕ)

inductive Process where
  | running (n : Node)
  | waiting (n : Node) (w : Waiting)
  | crashed (files : Image)

/-- `calls` are numbered by their position, `replies` carry the number of their call. -/
structure State where
  processes : NodeId → Process
  calls : List Call
  replies : List (ℕ × Response)

/-- What an observer sees of a run. -/
inductive Event where
  | elected (id : NodeId) (term : ℕ)
  | acknowledged (id : NodeId) (index term : ℕ) (data : Bytes)
  | served (id : NodeId) (fromIndex : ℕ) (entries : List LogEntry)

/-- The node of a process that is up. -/
def Process.node : Process → Option Node
  | .running n => some n
  | .waiting n _ => some n
  | .crashed _ => none

/-- What an action leaves besides the node. -/
structure Outcome where
  waiting : Option Waiting
  calls : List Call
  replies : List (ℕ × Response)
  event : Option Event

/-- A process that is up, perhaps waiting. -/
def Process.up (n : Node) : Option Waiting → Process
  | some w => .waiting n w
  | none => .running n

def State.set (s : State) (id : NodeId) (p : Process) : State :=
  { s with processes := Function.update s.processes id p }

def State.after (s : State) (id : NodeId) (n : Node) (o : Outcome) : State where
  processes := Function.update s.processes id (.up n o.waiting)
  calls := s.calls ++ o.calls
  replies := s.replies ++ o.replies

/-- The results of the calls from number `first` on: each is a reply to its own call, or
the call failed. -/
def Answered (s : State) (first : ℕ) (results : List (Option Response)) : Prop :=
  ∀ i resp, results[i]? = some (some resp) → (first + i, resp) ∈ s.replies

section

variable [Crc32]

def writeCalls (id : NodeId) (n : Node) (index : ℕ) : List Call :=
  (n.appendCalls index).map (fun p => ⟨id, p.1, .appendEntries p.2⟩) ++
    (n.snapshotCalls index).map (fun p => ⟨id, p.1, .installSnapshot p.2⟩)

/-- The actions of a process that is up. A message carries an id of less than `2 ^ 32`
bytes: the length field of a frame. -/
inductive Act (s : State) (id : NodeId) (n : Node) : Action → Outcome → Prop where
  | requestVote {k : ℕ} {src : NodeId} {req : RequestVoteRequest}
      (hup : s.processes id = .running n)
      (hcall : s.calls[k]? = some ⟨src, id, .requestVote req⟩)
      (hsize : (idBytes req.candidateId).length < 2 ^ 32) :
      Act s id n (.requestVote req)
        ⟨none, [], [(k, .requestVote (n.begin.onRequestVote req).1)], none⟩
  | appendEntries {k : ℕ} {src : NodeId} {req : AppendEntriesRequest}
      (hup : s.processes id = .running n)
      (hcall : s.calls[k]? = some ⟨src, id, .appendEntries req⟩) :
      Act s id n (.appendEntries req)
        ⟨none, [], [(k, .appendEntries (n.begin.onAppendEntries req).1)], none⟩
  | installSnapshot {k : ℕ} {src : NodeId} {req : InstallSnapshotRequest}
      (hup : s.processes id = .running n)
      (hcall : s.calls[k]? = some ⟨src, id, .installSnapshot req⟩) :
      Act s id n (.installSnapshot req)
        ⟨none, [], [(k, .installSnapshot (n.begin.onInstallSnapshot req).1)], none⟩
  | startElection (hup : s.processes id = .running n) (hrole : n.role ≠ .leader) :
      Act s id n .startElection
        ⟨some (.election s.calls.length),
          n.peers.map (fun p => ⟨id, p, .requestVote n.begin.startElection.1⟩), [], none⟩
  | finishElection {first : ℕ} {results : List (Option RequestVoteResponse)}
      (hup : s.processes id = .waiting n (.election first))
      (hlen : results.length = n.peers.length)
      (hres : Answered s first (results.map (Option.map .requestVote))) :
      Act s id n (.finishElection results)
        ⟨none, [], [],
          if (n.begin.finishElection results).role = .leader then
            some (.elected id (n.begin.finishElection results).ps.currentTerm)
          else none⟩
  | writeRefused {data : Bytes} {e : RaftError} (hup : s.processes id = .running n)
      (hwrite : (n.begin.startWrite data).1 = .error e) :
      Act s id n (.startWrite data) ⟨none, [], [], none⟩
  | writeStarted {data : Bytes} {index : ℕ} (hup : s.processes id = .running n)
      (hwrite : (n.begin.startWrite data).1 = .ok index) :
      Act s id n (.startWrite data)
        ⟨some (.write index data s.calls.length),
          writeCalls id (n.begin.startWrite data).2 index, [], none⟩
  | finishWrite {index first : ℕ} {data : Bytes}
      {appends : List (NodeId × Option AppendEntriesResponse)}
      {snapshots : List (NodeId × Option InstallSnapshotResponse)}
      (hup : s.processes id = .waiting n (.write index data first))
      (happends : appends.map Prod.fst = (n.appendCalls index).map Prod.fst)
      (hsnapshots : snapshots.map Prod.fst = (n.snapshotCalls index).map Prod.fst)
      (hres : Answered s first (appends.map (fun p => p.2.map .appendEntries) ++
        snapshots.map (fun p => p.2.map .installSnapshot))) :
      Act s id n (.finishWrite index appends snapshots)
        ⟨none, [], [],
          match (n.begin.finishWrite index appends snapshots).1 with
          | .ok i => some (.acknowledged id i n.ps.currentTerm data)
          | .error _ => none⟩
  | sendHeartbeats (hup : s.processes id = .running n) (hrole : n.role = .leader) :
      Act s id n .sendHeartbeats
        ⟨some (.heartbeats s.calls.length),
          n.peers.map (fun p => ⟨id, p, .appendEntries n.heartbeat⟩), [], none⟩
  | finishHeartbeats {first : ℕ} {results : List (Option AppendEntriesResponse)}
      (hup : s.processes id = .waiting n (.heartbeats first))
      (hlen : results.length = n.peers.length)
      (hres : Answered s first (results.map (Option.map .appendEntries))) :
      Act s id n (.finishHeartbeats results) ⟨none, [], [], none⟩
  | clientRead {fromIndex : ℕ} (hup : s.processes id = .running n) :
      Act s id n (.clientRead fromIndex)
        ⟨none, [], [], some (.served id fromIndex (n.clientRead fromIndex))⟩

/-- What the steps of a run are limited to: what a node does in its state, and the files
that a process starts again from. -/
structure Conditions where
  action : Node → Action → Prop
  restart : Image → Prop

def anything : Conditions := ⟨fun _ _ => True, fun _ => True⟩

inductive Step (c : Cluster) (ok : Conditions) (s : State) : Option Event → State → Prop where
  | act {id : NodeId} {n : Node} {a : Action} {o : Outcome} (hid : id ∈ c.members)
      (hact : Act s id n a o) (hb : Bounded n a) (hok : ok.action n a) :
      Step c ok s o.event (s.after id (n.act a) o)
  | crash {id : NodeId} {n : Node} {a : Action} {o : Outcome} {img : Image}
      (hid : id ∈ c.members) (hact : Act s id n a o) (hb : Bounded n a) (hok : ok.action n a)
      (himg : img ∈ (n.act a).trail) :
      Step c ok s none (s.set id (.crashed img))
  | restart {id : NodeId} {img : Image} {n : Node} (hid : id ∈ c.members)
      (hdown : s.processes id = .crashed img) (hok : ok.restart img)
      (hstart : Node.start id (c.peers id) img.stateFile img.wal img.snapshotFile = .ok n) :
      Step c ok s none (s.set id (.running n))

/-- Every member starts from an empty directory. -/
structure Starts (c : Cluster) (s : State) : Prop where
  processes : ∀ id ∈ c.members, ∃ n,
    Node.start id (c.peers id) none Dir.empty none = .ok n ∧ s.processes id = .running n
  calls : s.calls = []
  replies : s.replies = []

/-- The runs of the cluster, with the events seen so far. -/
inductive ClusterRun (c : Cluster) (ok : Conditions) : List Event → State → Prop where
  | start {s : State} (h : Starts c s) : ClusterRun c ok [] s
  | step {es : List Event} {s s' : State} {e : Option Event} (run : ClusterRun c ok es s)
      (hstep : Step c ok s e s') : ClusterRun c ok (es ++ e.toList) s'

theorem Step.anything {c : Cluster} {ok : Conditions} {s s' : State} {e : Option Event}
    (h : Step c ok s e s') : Step c anything s e s' := by
  cases h with
  | act hid hact hb hok => exact .act hid hact hb trivial
  | crash hid hact hb hok himg => exact .crash hid hact hb trivial himg
  | restart hid hdown hok hstart => exact .restart hid hdown trivial hstart

theorem ClusterRun.anything {c : Cluster} {ok : Conditions} {es : List Event} {s : State}
    (run : ClusterRun c ok es s) : ClusterRun c anything es s := by
  induction run with
  | start h => exact .start h
  | step run hstep ih => exact .step ih hstep.anything

theorem Act.node {s : State} {id : NodeId} {n : Node} {a : Action} {o : Outcome}
    (h : Act s id n a o) : (s.processes id).node = some n := by
  cases h <;> exact congrArg Process.node ‹s.processes id = _›

end

@[simp] theorem Process.up_node (n : Node) (w : Option Waiting) :
    (Process.up n w).node = some n := by
  cases w <;> rfl

@[simp] theorem State.set_calls (s : State) (id : NodeId) (p : Process) :
    (s.set id p).calls = s.calls := rfl

@[simp] theorem State.set_replies (s : State) (id : NodeId) (p : Process) :
    (s.set id p).replies = s.replies := rfl

@[simp] theorem State.set_self (s : State) (id : NodeId) (p : Process) :
    (s.set id p).processes id = p := by
  simp [State.set]

theorem State.set_of_ne (s : State) {id i : NodeId} (p : Process) (h : i ≠ id) :
    (s.set id p).processes i = s.processes i := by
  simp [State.set, h]

@[simp] theorem State.after_calls (s : State) (id : NodeId) (n : Node) (o : Outcome) :
    (s.after id n o).calls = s.calls ++ o.calls := rfl

@[simp] theorem State.after_replies (s : State) (id : NodeId) (n : Node) (o : Outcome) :
    (s.after id n o).replies = s.replies ++ o.replies := rfl

@[simp] theorem State.after_self (s : State) (id : NodeId) (n : Node) (o : Outcome) :
    (s.after id n o).processes id = .up n o.waiting := by
  simp [State.after]

theorem State.after_of_ne (s : State) {id i : NodeId} (n : Node) (o : Outcome) (h : i ≠ id) :
    (s.after id n o).processes i = s.processes i := by
  simp [State.after, h]

/-- A call keeps its number. -/
theorem getElem?_grow {calls more : List Call} {k : ℕ} {call : Call}
    (h : calls[k]? = some call) : (calls ++ more)[k]? = some call := by
  rw [List.getElem?_append_left (List.getElem?_eq_some_iff.mp h).1]
  exact h

end RaftCluster
