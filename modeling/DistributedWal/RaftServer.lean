import DistributedWal.RaftCluster

/-! # The servers of a cluster

A member as the process that runs it. One task owns the node: it takes a message from its
channel or has a timeout, runs the handler, and looks at the channel again when the handler
is through. The services put the calls of peers and the requests of clients into the
channel, and each waits at a oneshot for the answer. A call that finds the channel full
waits outside: it has not been delivered yet.
-/
namespace RaftServer

open LittleEndianCodec ReplicatedLog RaftPersistentState RaftNode RaftNodeVotes RaftCluster
open WalEntry (Crc32)
open WalSegment (Dir)

/-- Capacity of the channel that `start` makes. -/
def channelCapacity : ℕ := 256

/-- Messages the actor handles. `reply` is the oneshot: the number of a peer's call or of a
client's request. -/
inductive RaftMsg where
  | appendEntries (req : AppendEntriesRequest) (reply : ℕ)
  | requestVote (req : RequestVoteRequest) (reply : ℕ)
  | installSnapshot (req : InstallSnapshotRequest) (reply : ℕ)
  | clientWrite (data : Bytes) (reply : ℕ)
  | clientRead (fromIndex : ℕ) (reply : ℕ)

inductive ClientRequest where
  | write (data : Bytes)
  | readFrom (fromIndex : ℕ)
  deriving DecidableEq

structure ClientCall where
  target : NodeId
  request : ClientRequest
  deriving DecidableEq

/-- What comes of a oneshot: an answer, or the task is gone with the sender. -/
inductive Answer where
  | write (result : Except RaftError ℕ)
  | read (entries : List LogEntry)
  | dropped

/-- The answer that a server had for a client's request. -/
structure Told where
  server : NodeId
  request : ℕ
  answer : Answer

/-- What the task awaits in the middle of a handler. -/
inductive Awaiting where
  | election (first : ℕ)
  | write (index : ℕ) (data : Bytes) (first reply : ℕ)
  | heartbeats (first : ℕ)

inductive Server where
  | up (n : Node) (awaiting : Option Awaiting) (mailbox : List RaftMsg)
  | down (files : Image)

/-- All servers, with the calls between them and their replies as in the cluster. `requests`
are numbered by their position. -/
structure Net where
  servers : NodeId → Server
  calls : List Call
  replies : List (ℕ × Response)
  requests : List ClientCall
  told : List Told

/-- What comes of a handler until it returns or awaits its peers. -/
structure Handled where
  node : Node
  awaiting : Option Awaiting
  calls : List Call
  replies : List (ℕ × Response)
  answers : List (ℕ × Answer)
  event : Option Event

/-- The message of a peer's call: the service adds the oneshot. -/
def peerMsg (request : Request) (reply : ℕ) : RaftMsg :=
  match request with
  | .appendEntries req => .appendEntries req reply
  | .requestVote req => .requestVote req reply
  | .installSnapshot req => .installSnapshot req reply

def clientMsg (request : ClientRequest) (reply : ℕ) : RaftMsg :=
  match request with
  | .write data => .clientWrite data reply
  | .readFrom fromIndex => .clientRead fromIndex reply

/-- The length field of a frame has 4 bytes. -/
def FitsFrame : Request → Prop
  | .requestVote req => (idBytes req.candidateId).length < 2 ^ 32
  | _ => True

section

variable [Crc32]

/-- `handle_msg`. `first` is the number of the next call. -/
def handleMsg (id : NodeId) (first : ℕ) (n : Node) : RaftMsg → Handled
  | .appendEntries req reply =>
    let (resp, n) := n.begin.onAppendEntries req
    ⟨n, none, [], [(reply, .appendEntries resp)], [], none⟩
  | .requestVote req reply =>
    let (resp, n) := n.begin.onRequestVote req
    ⟨n, none, [], [(reply, .requestVote resp)], [], none⟩
  | .installSnapshot req reply =>
    let (resp, n) := n.begin.onInstallSnapshot req
    ⟨n, none, [], [(reply, .installSnapshot resp)], [], none⟩
  | .clientWrite data reply =>
    match n.begin.startWrite data with
    | (.error e, n) => ⟨n, none, [], [], [(reply, .write (.error e))], none⟩
    | (.ok index, n) =>
      ⟨n, some (.write index data first reply), writeCalls id n index, [], [], none⟩
  | .clientRead fromIndex reply =>
    let entries := n.clientRead fromIndex
    ⟨n.begin, none, [], [], [(reply, .read entries)], some (.served id fromIndex entries)⟩

/-- `handle_timeout`. -/
def handleTimeout (id : NodeId) (first : ℕ) (n : Node) : Handled :=
  if n.role = .leader then
    ⟨n.begin, some (.heartbeats first),
      n.peers.map (fun p => ⟨id, p, .appendEntries n.heartbeat⟩), [], [], none⟩
  else
    let (req, n') := n.begin.startElection
    ⟨n', some (.election first), n.peers.map (fun p => ⟨id, p, .requestVote req⟩), [], [],
      none⟩

/-- `start_election` from the results on. -/
def endElection (id : NodeId) (n : Node) (results : List (Option RequestVoteResponse)) :
    Handled :=
  let n := n.begin.finishElection results
  ⟨n, none, [], [], [], if n.role = .leader then some (.elected id n.ps.currentTerm) else none⟩

/-- `on_client_write` from the results on, with its answer. -/
def endWrite (id : NodeId) (n : Node) (index : ℕ) (data : Bytes) (reply : ℕ)
    (appends : List (NodeId × Option AppendEntriesResponse))
    (snapshots : List (NodeId × Option InstallSnapshotResponse)) : Handled :=
  let (result, n') := n.begin.finishWrite index appends snapshots
  ⟨n', none, [], [], [(reply, .write result)],
    match result with
    | .ok i => some (.acknowledged id i n.ps.currentTerm data)
    | .error _ => none⟩

/-- `send_heartbeats` from the results on. -/
def endHeartbeats (n : Node) (results : List (Option AppendEntriesResponse)) : Handled :=
  ⟨n.begin.finishHeartbeats results, none, [], [], [], none⟩

end

/-- The node's action for a message. -/
def RaftMsg.action : RaftMsg → Action
  | .appendEntries req _ => .appendEntries req
  | .requestVote req _ => .requestVote req
  | .installSnapshot req _ => .installSnapshot req
  | .clientWrite data _ => .startWrite data
  | .clientRead fromIndex _ => .clientRead fromIndex

def timeoutAction (n : Node) : Action :=
  if n.role = .leader then .sendHeartbeats else .startElection

/-- The client's request that the message is for. -/
def RaftMsg.client : RaftMsg → Option ℕ
  | .clientWrite _ reply => some reply
  | .clientRead _ reply => some reply
  | _ => none

def Awaiting.client : Awaiting → Option ℕ
  | .write _ _ _ reply => some reply
  | _ => none

/-- The requests that the server still has to answer, in the order of its work. -/
def Server.unanswered : Server → List ℕ
  | .up _ awaiting mailbox =>
    (awaiting.bind Awaiting.client).toList ++ mailbox.filterMap RaftMsg.client
  | .down _ => []

def Net.set (s : Net) (id : NodeId) (server : Server) : Net :=
  { s with servers := Function.update s.servers id server }

/-- A request of a client gets into the channel. -/
def Net.submitted (s : Net) (id : NodeId) (n : Node) (awaiting : Option Awaiting)
    (mailbox : List RaftMsg) (request : ClientRequest) : Net :=
  { s.set id (.up n awaiting (mailbox ++ [clientMsg request s.requests.length])) with
    requests := s.requests ++ [⟨id, request⟩] }

def Net.after (s : Net) (id : NodeId) (mailbox : List RaftMsg) (o : Handled) : Net where
  servers := Function.update s.servers id (.up o.node o.awaiting mailbox)
  calls := s.calls ++ o.calls
  replies := s.replies ++ o.replies
  requests := s.requests
  told := s.told ++ o.answers.map (fun p => ⟨id, p.1, p.2⟩)

/-- The process dies: the oneshots of its task and of its channel are dropped. -/
def Net.crashed (s : Net) (id : NodeId) (files : Image) : Net :=
  { s.set id (.down files) with
    told := s.told ++ (s.servers id).unanswered.map (fun k => ⟨id, k, .dropped⟩) }

def Awaiting.waiting : Awaiting → Waiting
  | .election first => .election first
  | .write index data first _ => .write index data first
  | .heartbeats first => .heartbeats first

def Server.process : Server → Process
  | .up n awaiting _ => .up n (awaiting.map Awaiting.waiting)
  | .down files => .crashed files

/-- The cluster that the servers make up: no channels and no clients. -/
def Net.cluster (s : Net) : State where
  processes id := (s.servers id).process
  calls := s.calls
  replies := s.replies

section

variable [Crc32]

/-- What the loop of a server does next: the node's action, the channel after it and what
comes of the handler. -/
inductive Turn (s : Net) (id : NodeId) (n : Node) : Action → List RaftMsg → Handled → Prop where
  | message {msg : RaftMsg} {mailbox : List RaftMsg}
      (hup : s.servers id = .up n none (msg :: mailbox)) :
      Turn s id n msg.action mailbox (handleMsg id s.calls.length n msg)
  | timeout {mailbox : List RaftMsg} (hup : s.servers id = .up n none mailbox) :
      Turn s id n (timeoutAction n) mailbox (handleTimeout id s.calls.length n)
  | votes {first : ℕ} {mailbox : List RaftMsg} {results : List (Option RequestVoteResponse)}
      (hup : s.servers id = .up n (some (.election first)) mailbox)
      (hlen : results.length = n.peers.length)
      (hres : Answered s.cluster first (results.map (Option.map .requestVote))) :
      Turn s id n (.finishElection results) mailbox (endElection id n results)
  | acks {index first reply : ℕ} {data : Bytes} {mailbox : List RaftMsg}
      {appends : List (NodeId × Option AppendEntriesResponse)}
      {snapshots : List (NodeId × Option InstallSnapshotResponse)}
      (hup : s.servers id = .up n (some (.write index data first reply)) mailbox)
      (happends : appends.map Prod.fst = (n.appendCalls index).map Prod.fst)
      (hsnapshots : snapshots.map Prod.fst = (n.snapshotCalls index).map Prod.fst)
      (hres : Answered s.cluster first (appends.map (fun p => p.2.map .appendEntries) ++
        snapshots.map (fun p => p.2.map .installSnapshot))) :
      Turn s id n (.finishWrite index appends snapshots) mailbox
        (endWrite id n index data reply appends snapshots)
  | beats {first : ℕ} {mailbox : List RaftMsg} {results : List (Option AppendEntriesResponse)}
      (hup : s.servers id = .up n (some (.heartbeats first)) mailbox)
      (hlen : results.length = n.peers.length)
      (hres : Answered s.cluster first (results.map (Option.map .appendEntries))) :
      Turn s id n (.finishHeartbeats results) mailbox (endHeartbeats n results)

inductive Step (c : Cluster) (ok : Conditions) (s : Net) : Option Event → Net → Prop where
  | deliver {id src : NodeId} {k : ℕ} {request : Request} {n : Node}
      {awaiting : Option Awaiting} {mailbox : List RaftMsg} (hid : id ∈ c.members)
      (hup : s.servers id = .up n awaiting mailbox) (hroom : mailbox.length < channelCapacity)
      (hcall : s.calls[k]? = some ⟨src, id, request⟩) (hsize : FitsFrame request) :
      Step c ok s none (s.set id (.up n awaiting (mailbox ++ [peerMsg request k])))
  | submit {id : NodeId} {n : Node} {awaiting : Option Awaiting} {mailbox : List RaftMsg}
      (request : ClientRequest) (hid : id ∈ c.members)
      (hup : s.servers id = .up n awaiting mailbox)
      (hroom : mailbox.length < channelCapacity) :
      Step c ok s none (s.submitted id n awaiting mailbox request)
  | turn {id : NodeId} {n : Node} {a : Action} {mailbox : List RaftMsg} {o : Handled}
      (hid : id ∈ c.members) (hturn : Turn s id n a mailbox o) (hb : Bounded n a)
      (hok : ok.action n a) : Step c ok s o.event (s.after id mailbox o)
  | crash {id : NodeId} {n : Node} {a : Action} {mailbox : List RaftMsg} {o : Handled}
      {img : Image} (hid : id ∈ c.members) (hturn : Turn s id n a mailbox o)
      (hb : Bounded n a) (hok : ok.action n a) (himg : img ∈ (n.act a).trail) :
      Step c ok s none (s.crashed id img)
  | restart {id : NodeId} {img : Image} {n : Node} (hid : id ∈ c.members)
      (hdown : s.servers id = .down img) (hok : ok.restart img)
      (hstart : Node.start id (c.peers id) img.stateFile img.wal img.snapshotFile = .ok n) :
      Step c ok s none (s.set id (.up n none []))

/-- Every server starts from an empty directory, and no client has asked yet. -/
structure Starts (c : Cluster) (s : Net) : Prop where
  servers : ∀ id ∈ c.members, ∃ n,
    Node.start id (c.peers id) none Dir.empty none = .ok n ∧ s.servers id = .up n none []
  calls : s.calls = []
  replies : s.replies = []
  requests : s.requests = []
  told : s.told = []

inductive ServerRun (c : Cluster) (ok : Conditions) : List Event → Net → Prop where
  | start {s : Net} (h : Starts c s) : ServerRun c ok [] s
  | step {es : List Event} {s s' : Net} {e : Option Event} (run : ServerRun c ok es s)
      (hstep : Step c ok s e s') : ServerRun c ok (es ++ e.toList) s'

end

@[simp] theorem Net.set_self (s : Net) (id : NodeId) (server : Server) :
    (s.set id server).servers id = server := Function.update_self _ _ _

theorem Net.set_of_ne (s : Net) {id i : NodeId} (server : Server) (h : i ≠ id) :
    (s.set id server).servers i = s.servers i := Function.update_of_ne h _ _

@[simp] theorem Net.submitted_self (s : Net) (id : NodeId) (n : Node)
    (awaiting : Option Awaiting) (mailbox : List RaftMsg) (request : ClientRequest) :
    (s.submitted id n awaiting mailbox request).servers id =
      .up n awaiting (mailbox ++ [clientMsg request s.requests.length]) := s.set_self _ _

theorem Net.submitted_of_ne (s : Net) {id i : NodeId} (n : Node) (awaiting : Option Awaiting)
    (mailbox : List RaftMsg) (request : ClientRequest) (h : i ≠ id) :
    (s.submitted id n awaiting mailbox request).servers i = s.servers i := s.set_of_ne _ h

@[simp] theorem Net.after_self (s : Net) (id : NodeId) (mailbox : List RaftMsg) (o : Handled) :
    (s.after id mailbox o).servers id = .up o.node o.awaiting mailbox := s.set_self _ _

theorem Net.after_of_ne (s : Net) {id i : NodeId} (mailbox : List RaftMsg) (o : Handled)
    (h : i ≠ id) : (s.after id mailbox o).servers i = s.servers i := s.set_of_ne _ h

@[simp] theorem Net.crashed_self (s : Net) (id : NodeId) (files : Image) :
    (s.crashed id files).servers id = .down files := s.set_self _ _

theorem Net.crashed_of_ne (s : Net) {id i : NodeId} (files : Image) (h : i ≠ id) :
    (s.crashed id files).servers i = s.servers i := s.set_of_ne _ h

end RaftServer
