import DistributedWal.RaftServer
import DistributedWal.LogMatching

/-! # The servers refine the cluster

Every message in a channel came of a call or of a request, so that a turn of a server is an
action of its node. What the servers of a cluster show is what the cluster can show: no more,
for a turn is a step of the cluster; and no less, for a step of the cluster is a delivery and
a turn.
-/
namespace RaftServerRefinement

open LittleEndianCodec ReplicatedLog RaftPersistentState RaftNode RaftNodeVotes RaftCluster
open RaftServer
open WalEntry (Crc32)

/-- The message came of a call to this server or of a client's request. -/
inductive Sent (s : Net) (id : NodeId) : RaftMsg → Prop where
  | call {src : NodeId} {k : ℕ} {request : Request}
      (hcall : s.calls[k]? = some ⟨src, id, request⟩) (hsize : FitsFrame request) :
      Sent s id (peerMsg request k)
  | request {k : ℕ} {request : ClientRequest} (hreq : s.requests[k]? = some ⟨id, request⟩) :
      Sent s id (clientMsg request k)

structure Mail (c : Cluster) (s : Net) : Prop where
  mailbox : ∀ id ∈ c.members, ∀ n awaiting mailbox, s.servers id = .up n awaiting mailbox →
    ∀ msg ∈ mailbox, Sent s id msg
  writing : ∀ id ∈ c.members, ∀ n index data first reply mailbox,
    s.servers id = .up n (some (.write index data first reply)) mailbox →
    s.requests[reply]? = some ⟨id, .write data⟩

/-- What a handler shows of itself to the cluster. -/
def outcome (o : Handled) : Outcome :=
  ⟨o.awaiting.map Awaiting.waiting, o.calls, o.replies, o.event⟩

variable {c : Cluster} {ok : Conditions} {es : List Event} {s s' : Net} {id : NodeId}

@[simp] theorem set_cluster_of_process {server : Server}
    (h : server.process = (s.servers id).process) : (s.set id server).cluster = s.cluster := by
  have hprocess : ∀ i, ((Function.update s.servers id server) i).process =
      (s.servers i).process := by
    intro i
    by_cases hi : i = id
    · subst hi
      rw [Function.update_self, h]
    · rw [Function.update_of_ne hi]
  simp only [Net.cluster, Net.set, hprocess]

theorem set_cluster (server : Server) :
    (s.set id server).cluster = s.cluster.set id server.process := by
  have hprocess : (fun i => ((Function.update s.servers id server) i).process) =
      Function.update (fun i => (s.servers i).process) id server.process := by
    funext i
    by_cases hi : i = id
    · subst hi
      simp
    · simp [hi]
  simp only [Net.cluster, Net.set, State.set, hprocess]

theorem after_cluster (mailbox : List RaftMsg) (o : Handled) :
    (s.after id mailbox o).cluster = s.cluster.after id o.node (outcome o) := by
  have hset : (s.set id (.up o.node o.awaiting mailbox)).cluster = _ := set_cluster _
  exact congrArg (fun t : State => (⟨t.processes, s.calls ++ o.calls, s.replies ++ o.replies⟩ :
    State)) hset

theorem submitted_cluster {n : Node} {awaiting : Option Awaiting} {mailbox : List RaftMsg}
    (hup : s.servers id = .up n awaiting mailbox) (request : ClientRequest) :
    (s.submitted id n awaiting mailbox request).cluster = s.cluster :=
  set_cluster_of_process (by rw [hup]; rfl)

theorem crashed_cluster (files : Image) :
    (s.crashed id files).cluster = s.cluster.set id (.crashed files) :=
  set_cluster (.down files)

theorem cluster_process {n : Node} {awaiting : Option Awaiting} {mailbox : List RaftMsg}
    (hup : s.servers id = .up n awaiting mailbox) :
    s.cluster.processes id = .up n (awaiting.map Awaiting.waiting) :=
  congrArg Server.process hup

/-- Calls and requests keep their numbers. -/
theorem Sent.later {msg : RaftMsg} (h : Sent s id msg) (hcalls : s.calls <+: s'.calls)
    (hrequests : s.requests <+: s'.requests) : Sent s' id msg := by
  cases h with
  | call hcall hsize => exact .call (LogMatching.prefix_getElem? hcalls hcall) hsize
  | request hreq => exact .request (LogMatching.prefix_getElem? hrequests hreq)

/-- One server changes, and nothing that was sent is forgotten. -/
theorem Mail.change (h : Mail c s) (s' : Net) (id : NodeId) (hcalls : s.calls <+: s'.calls)
    (hrequests : s.requests <+: s'.requests)
    (hothers : ∀ i, i ≠ id → s'.servers i = s.servers i)
    (hmailbox : ∀ n awaiting mailbox, s'.servers id = .up n awaiting mailbox →
      ∀ msg ∈ mailbox, Sent s' id msg)
    (hwriting : ∀ n index data first reply mailbox,
      s'.servers id = .up n (some (.write index data first reply)) mailbox →
      s'.requests[reply]? = some ⟨id, .write data⟩) : Mail c s' := by
  constructor
  · intro i hi n awaiting mailbox hup msg hmsg
    by_cases hsame : i = id
    · subst hsame
      exact hmailbox n awaiting mailbox hup msg hmsg
    · rw [hothers i hsame] at hup
      exact (h.mailbox i hi n awaiting mailbox hup msg hmsg).later hcalls hrequests
  · intro i hi n index data first reply mailbox hup
    by_cases hsame : i = id
    · subst hsame
      exact hwriting n index data first reply mailbox hup
    · rw [hothers i hsame] at hup
      exact LogMatching.prefix_getElem? hrequests
        (h.writing i hi n index data first reply mailbox hup)

theorem handleTimeout_writing {first : ℕ} {n : Node} {index f reply : ℕ} {data : Bytes} :
    (handleTimeout id first n).awaiting ≠ some (.write index data f reply) := by
  intro h
  rw [handleTimeout] at h
  split at h <;> cases h

/-- A message that the services put into the channel was sent. -/
theorem mail_put {n : Node} {awaiting : Option Awaiting} {mailbox : List RaftMsg}
    {msg : RaftMsg} (hmail : Mail c s) (hid : id ∈ c.members) (hup : s.servers id = .up n awaiting mailbox)
    (hcalls : s.calls <+: s'.calls) (hrequests : s.requests <+: s'.requests)
    (hservers : s'.servers = Function.update s.servers id (.up n awaiting (mailbox ++ [msg])))
    (hmsg : Sent s' id msg) : Mail c s' := by
  apply hmail.change s' id hcalls hrequests
  · intro i hi
    rw [hservers, Function.update_of_ne hi]
  · intro m aw box hup' x hx
    rw [hservers, Function.update_self] at hup'
    cases hup'
    rcases List.mem_append.mp hx with hx | hx
    · exact (hmail.mailbox id hid _ _ _ hup x hx).later hcalls hrequests
    · rw [List.mem_singleton.mp hx]
      exact hmsg
  · intro m index data first reply box hup'
    rw [hservers, Function.update_self] at hup'
    cases hup'
    exact LogMatching.prefix_getElem? hrequests (hmail.writing id hid _ _ _ _ _ _ hup)

/-- Nothing is left in the channels. -/
def Calm (c : Cluster) (s : Net) : Prop :=
  ∀ id ∈ c.members, ∀ n awaiting mailbox, s.servers id = .up n awaiting mailbox → mailbox = []

theorem Calm.change (h : Calm c s) (s' : Net) (id : NodeId)
    (hothers : ∀ i, i ≠ id → s'.servers i = s.servers i)
    (hself : ∀ n awaiting mailbox, s'.servers id = .up n awaiting mailbox → mailbox = []) :
    Calm c s' := by
  intro i hi n awaiting mailbox hup
  by_cases hsame : i = id
  · subst hsame
    exact hself n awaiting mailbox hup
  · rw [hothers i hsame] at hup
    exact h i hi n awaiting mailbox hup

theorem Calm.running (h : Calm c s) (hid : id ∈ c.members) {n : Node}
    (hup : s.cluster.processes id = .running n) : s.servers id = .up n none [] := by
  have hprocess : (s.servers id).process = .running n := hup
  cases hserver : s.servers id with
  | down files =>
    rw [hserver] at hprocess
    cases hprocess
  | up m awaiting mailbox =>
    obtain rfl := h id hid m awaiting mailbox hserver
    rw [hserver] at hprocess
    cases awaiting with
    | none =>
      cases hprocess
      rfl
    | some aw => cases hprocess

theorem Calm.waiting (h : Calm c s) (hid : id ∈ c.members) {n : Node} {w : Waiting}
    (hup : s.cluster.processes id = .waiting n w) :
    ∃ awaiting, s.servers id = .up n (some awaiting) [] ∧ awaiting.waiting = w := by
  have hprocess : (s.servers id).process = .waiting n w := hup
  cases hserver : s.servers id with
  | down files =>
    rw [hserver] at hprocess
    cases hprocess
  | up m awaiting mailbox =>
    obtain rfl := h id hid m awaiting mailbox hserver
    rw [hserver] at hprocess
    cases awaiting with
    | none => cases hprocess
    | some aw =>
      cases hprocess
      exact ⟨aw, rfl, rfl⟩

/-- The server of a process, with an empty channel. -/
def calmServer : Process → Server
  | .running n => .up n none []
  | .waiting n (.election first) => .up n (some (.election first)) []
  | .waiting n (.write index data first) => .up n (some (.write index data first 0)) []
  | .waiting n (.heartbeats first) => .up n (some (.heartbeats first)) []
  | .crashed files => .down files

theorem calmServer_process (p : Process) : (calmServer p).process = p := by
  cases p with
  | running n => rfl
  | waiting n w => cases w <;> rfl
  | crashed files => rfl

section

variable [Crc32]

theorem handleMsg_node (first : ℕ) (n : Node) (msg : RaftMsg) :
    (handleMsg id first n msg).node = n.act msg.action := by
  cases msg with
  | clientWrite data reply =>
    simp only [handleMsg, RaftMsg.action, Node.act]
    rcases n.begin.startWrite data with ⟨_ | _, _⟩ <;> rfl
  | _ => rfl

theorem handleTimeout_node (first : ℕ) (n : Node) :
    (handleTimeout id first n).node = n.act (timeoutAction n) := by
  rw [handleTimeout, timeoutAction]
  split <;> rfl

theorem turn_node {n : Node} {a : Action} {mailbox : List RaftMsg} {o : Handled}
    (h : Turn s id n a mailbox o) : o.node = n.act a := by
  cases h with
  | message => exact handleMsg_node _ _ _
  | timeout => exact handleTimeout_node _ _
  | votes => rfl
  | acks => rfl
  | beats => rfl

/-- A message makes the node act as the cluster says. -/
theorem message_act {n : Node} {msg : RaftMsg} {mailbox : List RaftMsg}
    (hup : s.servers id = .up n none (msg :: mailbox)) (hsent : Sent s id msg) :
    Act s.cluster id n msg.action (outcome (handleMsg id s.calls.length n msg)) := by
  have hrun : s.cluster.processes id = .running n := cluster_process hup
  cases hsent with
  | call hcall hsize =>
    rename_i request
    cases request with
    | appendEntries req => exact .appendEntries hrun hcall
    | requestVote req => exact .requestVote hrun hcall hsize
    | installSnapshot req => exact .installSnapshot hrun hcall
  | request hreq =>
    rename_i request
    cases request with
    | readFrom fromIndex => exact .clientRead hrun
    | write data =>
      cases hpair : n.begin.startWrite data with
      | mk result m =>
        have hwrite : (n.begin.startWrite data).1 = result := congrArg Prod.fst hpair
        cases result with
        | error e =>
          have hact := Act.writeRefused hrun hwrite
          simp only [clientMsg, handleMsg, hpair]
          exact hact
        | ok index =>
          have hact := Act.writeStarted hrun hwrite
          simp only [hpair] at hact
          simp only [clientMsg, handleMsg, hpair]
          exact hact

theorem timeout_act {n : Node} {mailbox : List RaftMsg}
    (hup : s.servers id = .up n none mailbox) :
    Act s.cluster id n (timeoutAction n) (outcome (handleTimeout id s.calls.length n)) := by
  have hrun : s.cluster.processes id = .running n := cluster_process hup
  rw [timeoutAction, handleTimeout]
  split
  next hrole => exact .sendHeartbeats hrun hrole
  next hrole => exact .startElection hrun hrole

theorem turn_act {n : Node} {a : Action} {mailbox : List RaftMsg} {o : Handled}
    (hmail : Mail c s) (hid : id ∈ c.members) (h : Turn s id n a mailbox o) :
    Act s.cluster id n a (outcome o) := by
  cases h with
  | message hup => exact message_act hup (hmail.mailbox id hid _ _ _ hup _ List.mem_cons_self)
  | timeout hup => exact timeout_act hup
  | votes hup hlen hres => exact .finishElection (cluster_process hup) hlen hres
  | acks hup happends hsnapshots hres =>
    exact .finishWrite (cluster_process hup) happends hsnapshots hres
  | beats hup hlen hres => exact .finishHeartbeats (cluster_process hup) hlen hres

/-- A step of the servers is a step of the cluster, or the cluster does not see it. -/
theorem step_cluster {e : Option Event} (hmail : Mail c s) (h : RaftServer.Step c ok s e s') :
    (e = none ∧ s'.cluster = s.cluster) ∨ RaftCluster.Step c ok s.cluster e s'.cluster := by
  cases h with
  | deliver hid hup =>
    exact Or.inl ⟨rfl, set_cluster_of_process (by rw [hup]; rfl)⟩
  | submit request hid hup => exact Or.inl ⟨rfl, submitted_cluster hup request⟩
  | turn hid hturn hb hok =>
    rw [after_cluster, turn_node hturn]
    exact Or.inr (.act hid (turn_act hmail hid hturn) hb hok)
  | crash hid hturn hb hok himg =>
    rw [crashed_cluster]
    exact Or.inr (.crash hid (turn_act hmail hid hturn) hb hok himg)
  | restart hid hdown hok hstart =>
    rw [set_cluster]
    exact Or.inr (.restart hid (congrArg Server.process hdown) hok hstart)

/-- A write that a handler leaves running is that of its message. -/
theorem handleMsg_writing {first : ℕ} {n : Node} {msg : RaftMsg} {index f reply : ℕ}
    {data : Bytes} (hsent : Sent s id msg)
    (h : (handleMsg id first n msg).awaiting = some (.write index data f reply)) :
    s.requests[reply]? = some ⟨id, .write data⟩ := by
  cases hsent with
  | call hcall hsize =>
    rename_i request
    cases request <;> cases h
  | request hreq =>
    rename_i request
    cases request with
    | readFrom fromIndex => cases h
    | write data' =>
      cases hpair : n.begin.startWrite data' with
      | mk result m =>
        cases result with
        | error e =>
          simp only [clientMsg, handleMsg, hpair] at h
          cases h
        | ok i =>
          simp only [clientMsg, handleMsg, hpair] at h
          cases h
          exact hreq

theorem turn_up {n : Node} {a : Action} {mailbox : List RaftMsg} {o : Handled}
    (h : Turn s id n a mailbox o) :
    ∃ awaiting taken, s.servers id = .up n awaiting (taken ++ mailbox) := by
  cases h with
  | @message msg _ hup => exact ⟨_, [msg], hup⟩
  | timeout hup => exact ⟨_, [], hup⟩
  | votes hup => exact ⟨_, [], hup⟩
  | acks hup => exact ⟨_, [], hup⟩
  | beats hup => exact ⟨_, [], hup⟩

theorem turn_writing {n : Node} {a : Action} {mailbox : List RaftMsg} {o : Handled}
    (hmail : Mail c s) (hid : id ∈ c.members) (h : Turn s id n a mailbox o)
    {index first reply : ℕ} {data : Bytes}
    (ho : o.awaiting = some (.write index data first reply)) :
    s.requests[reply]? = some ⟨id, .write data⟩ := by
  cases h with
  | message hup =>
    exact handleMsg_writing (hmail.mailbox id hid _ _ _ hup _ List.mem_cons_self) ho
  | timeout hup => exact absurd ho handleTimeout_writing
  | votes => cases ho
  | acks => cases ho
  | beats => cases ho

theorem mail_step {e : Option Event} (hmail : Mail c s) (h : RaftServer.Step c ok s e s') :
    Mail c s' := by
  cases h with
  | @deliver id src k request n awaiting mailbox hid hup hroom hcall hsize =>
    exact mail_put hmail hid hup List.prefix_rfl List.prefix_rfl rfl (.call hcall hsize)
  | @submit id n awaiting mailbox request hid hup hroom =>
    refine mail_put hmail hid hup List.prefix_rfl (List.prefix_append _ _) rfl (.request ?_)
    simp [Net.submitted]
  | @turn id n a mailbox o hid hturn =>
    obtain ⟨awaiting, taken, hup⟩ := turn_up hturn
    apply hmail.change (s.after id mailbox o) id (List.prefix_append _ _) List.prefix_rfl
    · exact fun i hi => s.after_of_ne mailbox o hi
    · intro m aw box hup' x hx
      rw [Net.after_self] at hup'
      cases hup'
      have hsent := hmail.mailbox id hid _ _ _ hup x (List.mem_append_right _ hx)
      exact hsent.later (List.prefix_append _ _) List.prefix_rfl
    · intro m index data first reply box hup'
      rw [Net.after_self] at hup'
      injection hup' with _ ho _
      exact turn_writing hmail hid hturn ho
  | @crash id n a mailbox o img hid hturn =>
    apply hmail.change (s.crashed id img) id List.prefix_rfl List.prefix_rfl
    · exact fun i hi => s.crashed_of_ne img hi
    · intro m aw box hup'
      rw [Net.crashed_self] at hup'
      cases hup'
    · intro m index data first reply box hup'
      rw [Net.crashed_self] at hup'
      cases hup'
  | @restart id img n hid hdown =>
    apply hmail.change (s.set id (.up n none [])) id List.prefix_rfl List.prefix_rfl
    · exact fun i hi => s.set_of_ne _ hi
    · intro m aw box hup' x hx
      rw [Net.set_self] at hup'
      cases hup'
      cases hx
    · intro m index data first reply box hup'
      rw [Net.set_self] at hup'
      cases hup'

theorem cluster_starts (h : RaftServer.Starts c s) : RaftCluster.Starts c s.cluster := by
  constructor
  · intro id hid
    obtain ⟨n, hstart, hup⟩ := h.servers id hid
    exact ⟨n, hstart, cluster_process hup⟩
  · exact h.calls
  · exact h.replies

theorem cluster_of_servers (run : ServerRun c ok es s) :
    Mail c s ∧ ClusterRun c ok es s.cluster := by
  induction run with
  | start h =>
    refine ⟨?_, .start (cluster_starts h)⟩
    constructor
    · intro id hid n awaiting mailbox hup msg hmsg
      obtain ⟨m, _, hstart⟩ := h.servers id hid
      rw [hstart] at hup
      cases hup
      cases hmsg
    · intro id hid n index data first reply mailbox hup
      obtain ⟨m, _, hstart⟩ := h.servers id hid
      rw [hstart] at hup
      cases hup
  | step run hstep ih =>
    obtain ⟨hmail, hcluster⟩ := ih
    refine ⟨mail_step hmail hstep, ?_⟩
    rcases step_cluster hmail hstep with ⟨rfl, hsame⟩ | hstep
    · rw [hsame, Option.toList_none, List.append_nil]
      exact hcluster
    · exact hcluster.step hstep

/-- The servers get ready for a turn that does what the cluster's node does. -/
structure Ready (c : Cluster) (ok : Conditions) (es : List Event) (s : Net) (id : NodeId)
    (n : Node) (a : Action) (o : Outcome) (s' : Net) (h : Handled) : Prop where
  run : ServerRun c ok es s'
  cluster : s'.cluster = s.cluster
  others : ∀ i, i ≠ id → s'.servers i = s.servers i
  turn : Turn s' id n a [] h
  shown : outcome h = o

theorem Ready.now {n : Node} {a : Action} {h : Handled} (run : ServerRun c ok es s)
    (hturn : Turn s id n a [] h) : Ready c ok es s id n a (outcome h) s h :=
  ⟨run, rfl, fun _ _ => rfl, hturn, rfl⟩

/-- A call gets into the empty channel, and its turn comes at once. -/
theorem Ready.delivered (run : ServerRun c ok es s) (hid : id ∈ c.members) {n : Node}
    (hup : s.servers id = .up n none []) {src : NodeId} {k : ℕ} {request : Request}
    (hcall : s.calls[k]? = some ⟨src, id, request⟩) (hsize : FitsFrame request) :
    Ready c ok es s id n (peerMsg request k).action
      (outcome (handleMsg id s.calls.length n (peerMsg request k)))
      (s.set id (.up n none [peerMsg request k]))
      (handleMsg id s.calls.length n (peerMsg request k)) := by
  constructor
  · have hstep : RaftServer.Step c ok s none (s.set id (.up n none [peerMsg request k])) :=
      .deliver hid hup (by decide) hcall hsize
    simpa using run.step hstep
  · exact set_cluster_of_process (by rw [hup]; rfl)
  · intro i hi
    exact Function.update_of_ne hi _ _
  · exact .message (Function.update_self _ _ _)
  · rfl

theorem Ready.submitted (run : ServerRun c ok es s) (hid : id ∈ c.members) {n : Node}
    (hup : s.servers id = .up n none []) (request : ClientRequest) :
    Ready c ok es s id n (clientMsg request s.requests.length).action
      (outcome (handleMsg id s.calls.length n (clientMsg request s.requests.length)))
      (s.submitted id n none [] request)
      (handleMsg id s.calls.length n (clientMsg request s.requests.length)) := by
  constructor
  · have hstep : RaftServer.Step c ok s none (s.submitted id n none [] request) :=
      .submit request hid hup (by decide)
    simpa using run.step hstep
  · exact submitted_cluster hup request
  · intro i hi
    exact Function.update_of_ne hi _ _
  · exact .message (Function.update_self _ _ _)
  · rfl

theorem ready_write (run : ServerRun c ok es s) (hid : id ∈ c.members) {n : Node}
    (hup : s.servers id = .up n none []) {data : Bytes} {o : Outcome}
    (hout : ∀ k, outcome (handleMsg id s.calls.length n (.clientWrite data k)) = o) :
    ∃ s' h, Ready c ok es s id n (.startWrite data) o s' h := by
  have hready := Ready.submitted run hid hup (.write data)
  rw [clientMsg, hout] at hready
  exact ⟨_, _, hready⟩

/-- Whatever a node can do in the cluster, its server can come to do. -/
theorem ready_act (run : ServerRun c ok es s) (hcalm : Calm c s) (hid : id ∈ c.members)
    {n : Node} {a : Action} {o : Outcome} (hact : Act s.cluster id n a o) :
    ∃ s' h, Ready c ok es s id n a o s' h := by
  cases hact with
  | requestVote hup hcall hsize =>
    exact ⟨_, _, .delivered run hid (hcalm.running hid hup) hcall hsize⟩
  | appendEntries hup hcall =>
    exact ⟨_, _, .delivered run hid (hcalm.running hid hup) hcall trivial⟩
  | installSnapshot hup hcall =>
    exact ⟨_, _, .delivered run hid (hcalm.running hid hup) hcall trivial⟩
  | startElection hup hrole =>
    have hturn := Turn.timeout (hcalm.running hid hup)
    rw [timeoutAction, handleTimeout, if_neg hrole, if_neg hrole] at hturn
    exact ⟨_, _, .now run hturn⟩
  | sendHeartbeats hup hrole =>
    have hturn := Turn.timeout (hcalm.running hid hup)
    rw [timeoutAction, handleTimeout, if_pos hrole, if_pos hrole] at hturn
    exact ⟨_, _, .now run hturn⟩
  | @writeRefused data e hup hwrite =>
    apply ready_write run hid (hcalm.running hid hup)
    intro k
    rw [handleMsg]
    split
    next heq => rfl
    next heq =>
      rw [heq] at hwrite
      cases hwrite
  | @writeStarted data index hup hwrite =>
    apply ready_write run hid (hcalm.running hid hup)
    intro k
    rw [handleMsg]
    split
    next heq =>
      rw [heq] at hwrite
      cases hwrite
    next heq =>
      rw [heq] at hwrite
      cases hwrite
      rw [heq]
      rfl
  | clientRead hup =>
    exact ⟨_, _, .submitted run hid (hcalm.running hid hup) (.readFrom _)⟩
  | finishElection hup hlen hres =>
    obtain ⟨awaiting, hserver, hw⟩ := hcalm.waiting hid hup
    cases awaiting <;> cases hw
    exact ⟨_, _, .now run (.votes hserver hlen hres)⟩
  | finishWrite hup happends hsnapshots hres =>
    obtain ⟨awaiting, hserver, hw⟩ := hcalm.waiting hid hup
    cases awaiting <;> cases hw
    exact ⟨_, _, .now run (.acks hserver happends hsnapshots hres)⟩
  | finishHeartbeats hup hlen hres =>
    obtain ⟨awaiting, hserver, hw⟩ := hcalm.waiting hid hup
    cases awaiting <;> cases hw
    exact ⟨_, _, .now run (.beats hserver hlen hres)⟩

theorem servers_of_start {t : State} (h : RaftCluster.Starts c t) :
    ∃ s, ServerRun c ok [] s ∧ Calm c s ∧ s.cluster = t := by
  refine ⟨⟨fun id => calmServer (t.processes id), t.calls, t.replies, [], []⟩, .start ?_, ?_, ?_⟩
  · constructor
    · intro id hid
      obtain ⟨n, hstart, hup⟩ := h.processes id hid
      exact ⟨n, hstart, congrArg calmServer hup⟩
    · exact h.calls
    · exact h.replies
    · rfl
    · rfl
  · intro id hid n awaiting mailbox hup
    obtain ⟨m, _, hrun⟩ := h.processes id hid
    simp only [hrun, calmServer] at hup
    cases hup
    rfl
  · simp only [Net.cluster, calmServer_process]

/-- The servers follow a step of the cluster. -/
theorem servers_follow (run : ServerRun c ok es s) (hcalm : Calm c s) {e : Option Event}
    {t : State} (h : RaftCluster.Step c ok s.cluster e t) :
    ∃ s', ServerRun c ok (es ++ e.toList) s' ∧ Calm c s' ∧ s'.cluster = t := by
  cases h with
  | @act id n a o hid hact hb hok =>
    obtain ⟨s₁, h, hready⟩ := ready_act run hcalm hid hact
    refine ⟨s₁.after id [] h, ?_, ?_, ?_⟩
    · have hevent : h.event = o.event := congrArg Outcome.event hready.shown
      rw [← hevent]
      exact hready.run.step (.turn hid hready.turn hb hok)
    · apply hcalm.change _ id
      · intro i hi
        exact (Function.update_of_ne hi _ _).trans (hready.others i hi)
      · intro m awaiting mailbox hup
        rw [Net.after_self] at hup
        cases hup
        rfl
    · rw [after_cluster, hready.cluster, hready.shown, turn_node hready.turn]
  | @crash id n a o img hid hact hb hok himg =>
    obtain ⟨s₁, h, hready⟩ := ready_act run hcalm hid hact
    refine ⟨s₁.crashed id img, ?_, ?_, ?_⟩
    · exact hready.run.step (.crash hid hready.turn hb hok himg)
    · apply hcalm.change _ id
      · intro i hi
        exact (Function.update_of_ne hi _ _).trans (hready.others i hi)
      · intro m awaiting mailbox hup
        rw [Net.crashed_self] at hup
        cases hup
    · rw [crashed_cluster, hready.cluster]
  | @restart id img n hid hdown hok hstart =>
    have hserver : s.servers id = .down img := by
      have hprocess : (s.servers id).process = .crashed img := hdown
      cases hs : s.servers id with
      | down files =>
        rw [hs] at hprocess
        cases hprocess
        rfl
      | up m awaiting mailbox =>
        rw [hs] at hprocess
        cases awaiting <;> cases hprocess
    refine ⟨s.set id (.up n none []), ?_, ?_, set_cluster _⟩
    · exact run.step (.restart hid hserver hok hstart)
    · apply hcalm.change _ id
      · intro i hi
        exact Function.update_of_ne hi _ _
      · intro m awaiting mailbox hup
        rw [Net.set_self] at hup
        cases hup
        rfl

theorem servers_of_cluster {t : State} (run : ClusterRun c ok es t) :
    ∃ s, ServerRun c ok es s ∧ Calm c s ∧ s.cluster = t := by
  induction run with
  | start h => exact servers_of_start h
  | step _ hstep ih =>
    obtain ⟨s, run, hcalm, rfl⟩ := ih
    exact servers_follow run hcalm hstep

/-- The servers with their channels and clients reach the states that the cluster reaches,
with the same events, and no others. -/
theorem servers_refine_cluster (c : Cluster) (ok : Conditions) (es : List Event) (t : State) :
    ClusterRun c ok es t ↔ ∃ s, ServerRun c ok es s ∧ s.cluster = t := by
  constructor
  · intro run
    obtain ⟨s, hrun, _, hs⟩ := servers_of_cluster run
    exact ⟨s, hrun, hs⟩
  · rintro ⟨s, hrun, rfl⟩
    exact (cluster_of_servers hrun).2

end

end RaftServerRefinement
