import DistributedWal.RaftCluster

/-! # The life of a node

What one member goes through, whatever its peers and clients send: the actions in an order
that the event loop allows, crashes in the middle of them, restarts from the files. Every
member of a cluster lives such a life.
-/
namespace RaftNodeLife

open LittleEndianCodec WalSegment ReplicatedLog RaftPersistentState RaftSnapshot RaftNode
open WalEntry (Crc32 ieee)
open RaftNodeVotes RaftCluster

/-- What a node waits for between the two halves of a handler. -/
inductive Doing where
  | idle
  | electing
  | writing (index : ℕ) (data : Bytes)
  | beating

inductive Stage where
  | up (n : Node) (d : Doing)
  | down (files : Image)

/-- What a life is limited to: the actions, and the files that a start finds. The snapshot
file need not be the one that the crash left. -/
structure LifeConditions where
  action : Node → Action → Prop
  restart : Image → Option Bytes → Prop

/-- What the process of a cluster waits for. -/
def doing : Option Waiting → Doing
  | none => .idle
  | some (.election _) => .electing
  | some (.write index data _) => .writing index data
  | some (.heartbeats _) => .beating

def stage : Process → Stage
  | .running n => .up n .idle
  | .waiting n w => .up n (doing (some w))
  | .crashed files => .down files

@[simp] theorem stage_up (n : Node) (w : Option Waiting) :
    stage (Process.up n w) = .up n (doing w) := by
  cases w <;> rfl

theorem stage_of_node {p : Process} {n : Node} (h : p.node = some n) :
    ∃ d, stage p = .up n d := by
  cases p with
  | running m =>
    cases h
    exact ⟨_, rfl⟩
  | waiting m w =>
    cases h
    exact ⟨_, rfl⟩
  | crashed img => cases h

/-- The limits of a cluster run for one member. Nothing but a crash leaves its files. -/
def lifeConditions (ok : Conditions) : LifeConditions :=
  ⟨ok.action, fun img file => file = img.snapshotFile ∧ ok.restart img⟩

section

variable [Crc32]

/-- The actions that can come next, with what the node waits for then. -/
inductive Turn (n : Node) : Doing → Action → Doing → Prop where
  | requestVote (req : RequestVoteRequest) : Turn n .idle (.requestVote req) .idle
  | appendEntries (req : AppendEntriesRequest) : Turn n .idle (.appendEntries req) .idle
  | installSnapshot (req : InstallSnapshotRequest) : Turn n .idle (.installSnapshot req) .idle
  | startElection (hrole : n.role ≠ .leader) : Turn n .idle .startElection .electing
  | finishElection (results : List (Option RequestVoteResponse)) :
      Turn n .electing (.finishElection results) .idle
  | writeRefused {data : Bytes} {e : RaftError}
      (hwrite : (n.begin.startWrite data).1 = .error e) : Turn n .idle (.startWrite data) .idle
  | writeStarted {data : Bytes} {index : ℕ}
      (hwrite : (n.begin.startWrite data).1 = .ok index) :
      Turn n .idle (.startWrite data) (.writing index data)
  | finishWrite {index : ℕ} {data : Bytes}
      {appends : List (NodeId × Option AppendEntriesResponse)}
      {snapshots : List (NodeId × Option InstallSnapshotResponse)}
      (happends : appends.map Prod.fst = (n.appendCalls index).map Prod.fst)
      (hsnapshots : snapshots.map Prod.fst = (n.snapshotCalls index).map Prod.fst) :
      Turn n (.writing index data) (.finishWrite index appends snapshots) .idle
  | sendHeartbeats (hrole : n.role = .leader) : Turn n .idle .sendHeartbeats .beating
  | finishHeartbeats (results : List (Option AppendEntriesResponse)) :
      Turn n .beating (.finishHeartbeats results) .idle
  | clientRead (fromIndex : ℕ) : Turn n .idle (.clientRead fromIndex) .idle

/-- The lives of a node from an empty directory. -/
inductive NodeLife (ok : LifeConditions) (id : NodeId) (peers : List NodeId) : Stage → Prop where
  | new {n : Node} (hstart : Node.start id peers none Dir.empty none = .ok n) :
      NodeLife ok id peers (.up n .idle)
  | act {n : Node} {d d' : Doing} {a : Action} (life : NodeLife ok id peers (.up n d))
      (hturn : Turn n d a d') (hb : Bounded n a) (hok : ok.action n a) :
      NodeLife ok id peers (.up (n.act a) d')
  | crash {n : Node} {d d' : Doing} {a : Action} {img : Image}
      (life : NodeLife ok id peers (.up n d)) (hturn : Turn n d a d') (hb : Bounded n a)
      (hok : ok.action n a) (himg : img ∈ (n.act a).trail) : NodeLife ok id peers (.down img)
  | restart {img : Image} {file : Option Bytes} {n : Node}
      (life : NodeLife ok id peers (.down img)) (hok : ok.restart img file)
      (hstart : Node.start id peers img.stateFile img.wal file = .ok n) :
      NodeLife ok id peers (.up n .idle)

theorem turn_of_act {s : State} {id : NodeId} {n : Node} {a : Action} {o : Outcome}
    (hact : Act s id n a o) :
    ∃ d, stage (s.processes id) = .up n d ∧ Turn n d a (doing o.waiting) := by
  cases hact with
  | requestVote hup => exact ⟨_, by rw [hup]; rfl, .requestVote _⟩
  | appendEntries hup => exact ⟨_, by rw [hup]; rfl, .appendEntries _⟩
  | installSnapshot hup => exact ⟨_, by rw [hup]; rfl, .installSnapshot _⟩
  | startElection hup hrole => exact ⟨_, by rw [hup]; rfl, .startElection hrole⟩
  | finishElection hup => exact ⟨_, by rw [hup]; rfl, .finishElection _⟩
  | writeRefused hup hwrite => exact ⟨_, by rw [hup]; rfl, .writeRefused hwrite⟩
  | writeStarted hup hwrite => exact ⟨_, by rw [hup]; rfl, .writeStarted hwrite⟩
  | finishWrite hup happends hsnapshots =>
    exact ⟨_, by rw [hup]; rfl, .finishWrite happends hsnapshots⟩
  | sendHeartbeats hup hrole => exact ⟨_, by rw [hup]; rfl, .sendHeartbeats hrole⟩
  | finishHeartbeats hup => exact ⟨_, by rw [hup]; rfl, .finishHeartbeats _⟩
  | clientRead hup => exact ⟨_, by rw [hup]; rfl, .clientRead _⟩

/-- The members of a cluster live. -/
theorem life_of_run {c : Cluster} {ok : Conditions} {es : List Event} {s : State}
    (run : ClusterRun c ok es s) {id : NodeId} (hid : id ∈ c.members) :
    NodeLife (lifeConditions ok) id (c.peers id) (stage (s.processes id)) := by
  induction run with
  | start h =>
    obtain ⟨n, hstart, hup⟩ := h.processes id hid
    rw [hup]
    exact .new hstart
  | step run hstep ih =>
    cases hstep with
    | @act i n a o hi hact hb hok =>
      by_cases hsame : id = i
      · subst hsame
        obtain ⟨d, hstage, hturn⟩ := turn_of_act hact
        rw [hstage] at ih
        rw [State.after_self, stage_up]
        exact .act ih hturn hb hok
      · rw [State.after_of_ne _ _ _ hsame]
        exact ih
    | @crash i n a o img hi hact hb hok himg =>
      by_cases hsame : id = i
      · subst hsame
        obtain ⟨d, hstage, hturn⟩ := turn_of_act hact
        rw [hstage] at ih
        rw [State.set_self]
        exact .crash ih hturn hb hok himg
      · rw [State.set_of_ne _ _ hsame]
        exact ih
    | @restart i img n hi hdown hok hstart =>
      by_cases hsame : id = i
      · subst hsame
        rw [hdown] at ih
        rw [State.set_self]
        exact .restart ih ⟨rfl, hok⟩ hstart
      · rw [State.set_of_ne _ _ hsame]
        exact ih

end

end RaftNodeLife
