import DistributedWal.RaftElections
import DistributedWal.RaftNodeAcks
import DistributedWal.RaftNodeEffects

/-! # The logs of a cluster

One history explains the logs of all members, the calls on their way and what the clients
have seen. Every step of the cluster leads from a history to a later one.
-/
namespace RaftClusterLogs

open LittleEndianCodec WalSegment WalEngine WalContents ReplicatedLog ReplicatedLogContents
open WalEntry (Crc32 ieee WalError)
open RaftPersistentState RaftSnapshot RaftNode RaftNodeFrame RaftNodeHandlers RaftNodeLogs
open RaftNodeVotes RaftNodeAppends RaftNodeMoves RaftNodeSnapshots RaftNodeEffects RaftCluster
open RaftNodeJournal (Room KeepsTail)
open LogMatching LeaderCompleteness Quorums FullLog

/-- The quorum for a write does not rest on installed snapshots. -/
def Backed (n : Node) (appends : List (NodeId × Option AppendEntriesResponse))
    (snapshots : List (NodeId × Option InstallSnapshotResponse)) : Prop :=
  n.quorum ≤ 1 + appendAcks appends + snapshotAcks snapshots →
    n.quorum ≤ 1 + appendAcks appends

/-- The log ends at or below the commit index, or there is nothing to read. -/
def ReadsCommitted (n : Node) (fromIndex : ℕ) : Prop :=
  n.log.entries = [] ∨ n.log.lastIndex < fromIndex ∨ n.log.lastIndex ≤ n.commitIndex

/-- What the steps keep clear of, with the acks and the reads as an option. -/
def ActionOk (backed reads : Prop) (n : Node) : Action → Prop
  | .appendEntries req => AboveSnapshot n req
  | .installSnapshot req => KeepsMatchingTail n req
  | .finishWrite _ appends snapshots => backed → Backed n appends snapshots
  | .clientRead fromIndex => reads → ReadsCommitted n fromIndex
  | _ => True

def raftConditions (backed reads : Prop) [Crc32] : Conditions where
  action n a := Room n a ∧ KeepsTail n a ∧ ActionOk backed reads n a
  restart _ := True

def quorums (c : Cluster) : QuorumSystem NodeId := majority c.members c.members_nodup

theorem quorums_upward (c : Cluster) : Upward (quorums c) := majority_upward

section

variable (backed reads : Prop) (c : Cluster) (H : LogHistory)

/-- A candidate asks for votes for its log. -/
structure Campaign (s : State) (id : NodeId) (n : Node) (l : List LogEntry) (first : ℕ) :
    Prop where
  terms : ∀ x ∈ l, x.term < n.ps.currentTerm
  calls : ∀ i p, n.peers[i]? = some p → s.calls[first + i]? =
    some ⟨id, p, .requestVote ⟨n.ps.currentTerm, id, l.length, lastTermOf l⟩⟩

/-- The entry is part of a log of which all is committed. -/
def Settled (e : LogEntry) : Prop :=
  ∃ u l, H.CommittedUpTo LogEntry.term (quorums c) u l ∧ l[e.index - 1]? = some e

def CallOk (call : Call) : Prop :=
  match call.request with
  | .appendEntries req => AppendSent backed (quorums c) H req
  | .installSnapshot req => InstallSent backed (quorums c) H req
  | .requestVote _ => True

/-- What a reply says about its sender. -/
def ReplyOk (call : Call) : Response → Prop
  | .appendEntries resp => ∀ req, call.request = .appendEntries req → resp.success = true →
      req.prevLogIndex + req.entries.length ≤ H.acked call.target req.term
  | .requestVote resp => ∀ req, call.request = .requestVote req → backed →
      resp.voteGranted = true → req.term ∈ H.elected ∨
        H.Ballot LogEntry.term call.target req.term req.lastLogTerm req.lastLogIndex
  | .installSnapshot _ => True

def EventOk : Event → Prop
  | .elected _ t => t ∈ H.elected
  | .acknowledged _ i t data => backed → H.Committed LogEntry.term (quorums c) t i ∧
      (H.llog t)[i - 1]? = some ⟨t, i, data⟩
  | .served _ _ entries => backed → reads → ∀ e ∈ entries, 0 < e.index ∧ Settled c H e

variable [Crc32]

/-- The entry that a client's write makes a leader append. -/
def proposed (n : Node) : Action → List LogEntry
  | .startWrite data =>
    match (n.begin.startWrite data).1 with
    | .ok index => [⟨n.ps.currentTerm, index, data⟩]
    | .error _ => []
  | _ => []

structure Alive (id : NodeId) (n : Node) (l : List LogEntry) : Prop where
  member : Member backed (quorums c) H id n l
  leads : n.role = .leader → n.ps.currentTerm ∈ H.elected ∧ H.llog n.ps.currentTerm = l

/-- A leader waits for its peers to take in its last entry. -/
structure Replicating (s : State) (id : NodeId) (n : Node) (l : List LogEntry) (index : ℕ)
    (data : Bytes) (first : ℕ) : Prop extends Writes H n l index data where
  stored : index ≤ H.acked id n.ps.currentTerm
  calls : ∀ i call, (writeCalls id n index)[i]? = some call →
    s.calls[first + i]? = some call

def WaitingOk (s : State) (id : NodeId) (n : Node) (l : List LogEntry) : Waiting → Prop
  | .election first => Campaign s id n l first
  | .write index data first => Replicating H s id n l index data first
  | .heartbeats _ => True

def ProcessOk (s : State) (id : NodeId) : Process → Prop
  | .running n => ∃ l, Alive backed c H id n l
  | .waiting n w => ∃ l, Alive backed c H id n l ∧ WaitingOk H s id n l w
  | .crashed img => H.current id = (stored img.stateFile).1 ∧
      ImageHolds (Holding backed H id (stored img.stateFile).1)
        (Covered backed (quorums c) H (stored img.stateFile).1) img

/-- The cluster around one member. -/
structure Around (id : NodeId) (es : List Event) (s : State) : Prop where
  lawful : H.Lawful LogEntry.term
  chosen : backed → H.Chosen LogEntry.term (quorums c)
  others : ∀ i ∈ c.members, i ≠ id → ProcessOk backed c H s i (s.processes i)
  calls : ∀ call ∈ s.calls, CallOk backed c H call
  replies : ∀ k resp, (k, resp) ∈ s.replies →
    ∃ call, s.calls[k]? = some call ∧ ReplyOk backed H call resp
  events : ∀ e ∈ es, EventOk backed reads c H e

structure Invariant (es : List Event) (s : State) : Prop where
  lawful : H.Lawful LogEntry.term
  chosen : backed → H.Chosen LogEntry.term (quorums c)
  elected : ∀ t ∈ H.elected, ∃ i, Event.elected i t ∈ es
  processes : ∀ id ∈ c.members, ProcessOk backed c H s id (s.processes id)
  calls : ∀ call ∈ s.calls, CallOk backed c H call
  replies : ∀ k resp, (k, resp) ∈ s.replies →
    ∃ call, s.calls[k]? = some call ∧ ReplyOk backed H call resp
  events : ∀ e ∈ es, EventOk backed reads c H e

end

/-- What a step adds to the logs of the leaders. -/
abbrev Adds (H H' : LogHistory) (new : List LogEntry) : Prop :=
  Extends LogEntry.term LogEntry.index H H' new

variable {backed reads : Prop} {c : Cluster} {H H' : LogHistory} {es : List Event} {s s' : State}
  {id : NodeId} {n m : Node} {l l' : List LogEntry}

theorem Settled.grow {e : LogEntry} (h : Settled c H e) (hg : Grows H H') : Settled c H' e := by
  obtain ⟨u, l, hl, he⟩ := h
  exact ⟨u, l, hg.committedUpTo (quorums_upward c) hl, he⟩

theorem AppendSent.grow {req : AppendEntriesRequest}
    (h : AppendSent backed (quorums c) H req) (hg : Grows H H') :
    AppendSent backed (quorums c) H' req := by
  refine ⟨hg.elected _ h.1, ?_⟩
  rcases h.2 with ⟨p, hcarries, hp, hcommit⟩ | hnever
  · left
    refine ⟨p, hcarries, hp.trans (hg.llog _), fun hbacked => ?_⟩
    exact (hcommit hbacked).grow (quorums_upward c) hg le_rfl
  · exact Or.inr hnever

theorem CallOk.grow {call : Call} (h : CallOk backed c H call) (hg : Grows H H') :
    CallOk backed c H' call := by
  obtain ⟨src, tgt, req⟩ := call
  cases req with
  | appendEntries req => exact AppendSent.grow h hg
  | installSnapshot req =>
    exact ⟨hg.elected _ h.1, h.2.grow (quorums_upward c) hg le_rfl⟩
  | requestVote req => trivial

theorem ReplyOk.grow {call : Call} {resp : Response} (h : ReplyOk backed H call resp)
    (hlaw : H.Lawful LogEntry.term) (hg : Grows H H') : ReplyOk backed H' call resp := by
  cases resp with
  | appendEntries resp =>
    intro req hreq hyes
    exact (h req hreq hyes).trans (hg.acked _ _)
  | requestVote resp =>
    intro req hreq hbacked hyes
    rcases h req hreq hbacked hyes with helected | hballot
    · exact Or.inl (hg.elected _ helected)
    · exact Or.inr (hg.ballot hlaw hballot)
  | installSnapshot resp => trivial

theorem EventOk.grow {e : Event} (h : EventOk backed reads c H e) (hg : Grows H H') :
    EventOk backed reads c H' e := by
  cases e with
  | elected i t => exact hg.elected t h
  | acknowledged i k t data =>
    intro hbacked
    obtain ⟨hcommitted, hentry⟩ := h hbacked
    exact ⟨hg.committed (quorums_upward c) hcommitted, prefix_getElem? (hg.llog t) hentry⟩
  | served i k entries =>
    intro hbacked hreads e he
    obtain ⟨hpos, hsettled⟩ := h hbacked hreads e he
    exact ⟨hpos, hsettled.grow hg⟩

theorem Campaign.grow {first : ℕ} (h : Campaign s id n l first)
    (hcalls : ∀ (k : ℕ) call, s.calls[k]? = some call → s'.calls[k]? = some call) :
    Campaign s' id n l first := ⟨h.terms, fun i p hp => hcalls _ _ (h.calls i p hp)⟩

section

variable [Crc32]

/-- A history that leaves the member, and its log if it leads, as they are. -/
structure Spares (H H' : LogHistory) (id : NodeId) (p : Process) : Prop where
  current : H'.current id = H.current id
  acked : H'.acked id = H.acked id
  leads : ∀ n, p.node = some n → n.role = .leader →
    H'.llog n.ps.currentTerm = H.llog n.ps.currentTerm

theorem Alive.grow (h : Alive backed c H id n l) (hlaw : H.Lawful LogEntry.term)
    (hg : Grows H H') {p : Process} (hp : p.node = some n) (hspares : Spares H H' id p) :
    Alive backed c H' id n l := by
  constructor
  · apply h.member.grow (quorums_upward c) hlaw hg hspares.current
    intro t _
    rw [hspares.acked]
  · intro hlead
    obtain ⟨helected, hl⟩ := h.leads hlead
    exact ⟨hg.elected _ helected, (hspares.leads n hp hlead).trans hl⟩

theorem ProcessOk.grow {p : Process} (h : ProcessOk backed c H s id p)
    (hlaw : H.Lawful LogEntry.term) (hg : Grows H H') (hspares : Spares H H' id p)
    (hcalls : ∀ (k : ℕ) call, s.calls[k]? = some call → s'.calls[k]? = some call) :
    ProcessOk backed c H' s' id p := by
  cases p with
  | running n =>
    obtain ⟨l, halive⟩ := h
    exact ⟨l, halive.grow hlaw hg rfl hspares⟩
  | waiting n w =>
    obtain ⟨l, halive, hw⟩ := h
    refine ⟨l, halive.grow hlaw hg rfl hspares, ?_⟩
    cases w with
    | election first => exact Campaign.grow hw hcalls
    | heartbeats first => trivial
    | write index data first =>
      have hleads := hspares.leads n rfl hw.role
      refine ⟨⟨hw.role, hw.last, hw.entry, hw.point, hleads.trans hw.leads⟩, ?_,
        fun i call hcall => hcalls _ _ (hw.calls i call hcall)⟩
      rw [hspares.acked]
      exact hw.stored
  | crashed img =>
    obtain ⟨hcur, hopens, ⟨full, hrep, hfull⟩, hfile, hcovered⟩ := h
    refine ⟨hspares.current.trans hcur, hopens, ⟨full, hrep, ?_⟩, ?_, hcovered⟩
    · exact hfull.grow hlaw hg (fun t _ => by rw [hspares.acked])
    · exact SnapshotFile.mono hfile (fun snap hs => hs.grow (quorums_upward c) hg le_rfl)

theorem Invariant.around (h : Invariant backed reads c H es s) (id : NodeId) :
    Around backed reads c H id es s :=
  ⟨h.lawful, h.chosen, fun i hi _ => h.processes i hi, h.calls, h.replies, h.events⟩

theorem Around.grow (h : Around backed reads c H id es s) (hg : Grows H H')
    (hlaw : H'.Lawful LogEntry.term) (hchosen : backed → H'.Chosen LogEntry.term (quorums c))
    (hspares : ∀ i ∈ c.members, i ≠ id → Spares H H' i (s.processes i)) :
    Around backed reads c H' id es s := by
  refine ⟨hlaw, hchosen, ?_, fun call hcall => (h.calls call hcall).grow hg, ?_,
    fun e he => (h.events e he).grow hg⟩
  · intro i hi hne
    exact (h.others i hi hne).grow h.lawful hg (hspares i hi hne) (fun _ _ hcall => hcall)
  · intro k resp hresp
    obtain ⟨call, hcall, hok⟩ := h.replies k resp hresp
    exact ⟨call, hcall, hok.grow h.lawful hg⟩

/-- The member crashes or starts again. -/
theorem Around.set (h : Around backed reads c H id es s) {p : Process}
    (hp : ProcessOk backed c H s id p) (helected : ∀ t ∈ H.elected, ∃ i, Event.elected i t ∈ es) :
    Invariant backed reads c H es (s.set id p) := by
  have hcalls : ∀ (k : ℕ) call, s.calls[k]? = some call → (s.set id p).calls[k]? = some call :=
    fun _ _ hcall => hcall
  have hsame : ∀ i q, Spares H H i q := fun i q => ⟨rfl, rfl, fun _ _ _ => rfl⟩
  refine ⟨h.lawful, h.chosen, helected, ?_, h.calls, h.replies, h.events⟩
  intro i hi
  by_cases hne : i = id
  · subst hne
    rw [State.set_self]
    exact hp.grow h.lawful .refl (hsame _ _) hcalls
  · rw [State.set_of_ne _ _ hne]
    exact (h.others i hi hne).grow h.lawful .refl (hsame _ _) hcalls

/-- The member has acted. -/
theorem Around.after (h : Around backed reads c H id es s) {o : Outcome}
    (hp : ProcessOk backed c H (s.after id m o) id (.up m o.waiting))
    (hcalls : ∀ call ∈ o.calls, CallOk backed c H call)
    (hreplies : ∀ k resp, (k, resp) ∈ o.replies →
      ∃ call, s.calls[k]? = some call ∧ ReplyOk backed H call resp)
    (hevents : ∀ e ∈ o.event.toList, EventOk backed reads c H e)
    (helected : ∀ t ∈ H.elected, ∃ i, Event.elected i t ∈ es ++ o.event.toList) :
    Invariant backed reads c H (es ++ o.event.toList) (s.after id m o) := by
  have hsame : ∀ i q, Spares H H i q := fun i q => ⟨rfl, rfl, fun _ _ _ => rfl⟩
  refine ⟨h.lawful, h.chosen, helected, ?_, ?_, ?_, ?_⟩
  · intro i hi
    by_cases hne : i = id
    · subst hne
      rw [State.after_self]
      exact hp
    · rw [State.after_of_ne _ _ _ hne]
      exact (h.others i hi hne).grow h.lawful .refl (hsame _ _) (fun _ _ => getElem?_grow)
  · intro call hcall
    rcases List.mem_append.mp hcall with hcall | hcall
    · exact h.calls call hcall
    · exact hcalls call hcall
  · intro k resp hresp
    have hold : ∃ call, s.calls[k]? = some call ∧ ReplyOk backed H call resp := by
      rcases List.mem_append.mp hresp with hresp | hresp
      · exact h.replies k resp hresp
      · exact hreplies k resp hresp
    obtain ⟨call, hcall, hok⟩ := hold
    exact ⟨call, getElem?_grow hcall, hok⟩
  · intro e he
    rcases List.mem_append.mp he with he | he
    · exact h.events e he
    · exact hevents e he

/-- What is known of the member that acts. -/
structure Acting (backed reads : Prop) (c : Cluster) (H : LogHistory) (es : List Event)
    (s : State) (id : NodeId) (n : Node) (a : Action) : Prop where
  invariant : Invariant backed reads c H es s
  member : id ∈ c.members
  self : n.id = id
  peers : n.peers = c.peers id
  term : n.ps.currentTerm ≤ (n.act a).ps.currentTerm
  bound : (n.act a).ps.currentTerm < 2 ^ 64
  alone : ∀ i ∈ c.members, i ≠ id → ∀ x, (s.processes i).node = some x → x.role = .leader →
    n.role = .leader → x.ps.currentTerm ≠ n.ps.currentTerm
  leading : n.role = .leader → 0 < n.ps.currentTerm

theorem acting_of_run {ok : Conditions} {a : Action} {o : Outcome}
    (run : ClusterRun c ok es s) (h : Invariant backed reads c H es s) (hid : id ∈ c.members)
    (hact : Act s id n a o) (hb : Bounded n a) : Acting backed reads c H es s id n a := by
  obtain ⟨votes, hv⟩ := RaftElections.invariant_of_run run
  have hn := (hv.processes id hid).node hact.node
  refine ⟨h, hid, hn.self, hn.peers, (hv.after hact hn hb).keeps.now.1, hb, ?_, ?_⟩
  · intro i hi hne x hx hlead hnlead heq
    have hx' := RaftElections.leader_was_elected run hi hx hlead
    have hn' := RaftElections.leader_was_elected run hid hact.node hnlead
    rw [heq] at hx'
    exact hne (RaftElections.elected_unique run hx' hn')
  · intro hlead
    exact (RaftElections.elected_member run
      (RaftElections.leader_was_elected run hid hact.node hlead)).1

variable {a : Action}

theorem Acting.spares (h : Acting backed reads c H es s id n a)
    (hnext : Next backed (quorums c) H id n m H' l l') :
    ∀ i ∈ c.members, i ≠ id → Spares H H' i (s.processes i) := by
  intro i hi hne
  refine ⟨?_, ?_, ?_⟩
  · rw [hnext.current, Function.update_of_ne hne]
  · rw [hnext.acked]
  · intro x hx hlead
    exact hnext.others _ (fun hnlead => h.alone i hi hne x hx hlead hnlead)

theorem Acting.around (h : Acting backed reads c H es s id n a)
    (hnext : Next backed (quorums c) H id n m H' l l') : Around backed reads c H' id es s := by
  apply (h.invariant.around id).grow hnext.grows hnext.lawful ?_ (h.spares hnext)
  intro hbacked
  apply hnext.grows.chosen h.invariant.lawful (quorums_upward c) (h.invariant.chosen hbacked)
  intro u hu hnot
  rw [hnext.elected] at hu
  exact absurd hu hnot

theorem Acting.elected (h : Acting backed reads c H es s id n a)
    (hnext : Next backed (quorums c) H id n m H' l l') (e : Option Event) :
    ∀ t ∈ H'.elected, ∃ i, Event.elected i t ∈ es ++ e.toList := by
  intro t ht
  rw [hnext.elected] at ht
  obtain ⟨i, hi⟩ := h.invariant.elected t ht
  exact ⟨i, List.mem_append_left _ hi⟩

/-- Whoever leads after the action led before it, unless an election has just been won. -/
theorem Alive.next (h : Alive backed c H id n l)
    (hnext : Next backed (quorums c) H id n (n.act a) H' l l')
    (hwon : ∀ results, a = .finishElection results → n.act a ≠ n.begin.becomeLeader) :
    Alive backed c H' id (n.act a) l' := by
  refine ⟨hnext.member, ?_⟩
  intro hlead
  rcases act_leader hlead with ⟨hrole, hterm⟩ | ⟨results, ha, hn, _⟩
  · obtain ⟨helected, hl⟩ := h.leads hrole
    rw [hterm, hnext.elected]
    exact ⟨helected, hnext.leads hrole hlead hl⟩
  · exact absurd hn (hwon results ha)

theorem act_begin (n : Node) (a : Action) : n.begin.act a = n.act a := by
  cases a <;> rfl

theorem Acting.untouched (h : Acting backed reads c H es s id n a)
    (halive : Alive backed c H id n l) (ha : ¬ TouchesLog a) :
    Next backed (quorums c) H id n (n.act a) (H.advance id (n.act a).ps.currentTerm) l l := by
  have hm := RaftNodeMoves.act_untouched (n := n.begin) ha
  rw [act_begin] at hm
  exact next_untouched halive.member (quorums_upward c) h.invariant.lawful hm h.term

theorem alive_running (h : Invariant backed reads c H es s) (hid : id ∈ c.members)
    (hup : s.processes id = .running n) : ∃ l, Alive backed c H id n l := by
  have hp := h.processes id hid
  rw [hup] at hp
  exact hp

theorem alive_waiting (h : Invariant backed reads c H es s) (hid : id ∈ c.members)
    {w : Waiting} (hup : s.processes id = .waiting n w) :
    ∃ l, Alive backed c H id n l ∧ WaitingOk H s id n l w := by
  have hp := h.processes id hid
  rw [hup] at hp
  exact hp

/-- An action that is over at once and leaves the log alone. -/
theorem Acting.quiet (h : Acting backed reads c H es s id n a)
    (halive : Alive backed c H id n l) (ha : ¬ TouchesLog a)
    (hwon : ∀ results, a = .finishElection results → n.act a ≠ n.begin.becomeLeader)
    {replies : List (ℕ × Response)} {e : Option Event}
    (hreplies : ∀ k resp, (k, resp) ∈ replies → ∃ call, s.calls[k]? = some call ∧
      ReplyOk backed (H.advance id (n.act a).ps.currentTerm) call resp)
    (hevents : ∀ x ∈ e.toList, EventOk backed reads c (H.advance id (n.act a).ps.currentTerm) x) :
    Invariant backed reads c (H.advance id (n.act a).ps.currentTerm) (es ++ e.toList)
      (s.after id (n.act a) ⟨none, [], replies, e⟩) := by
  have hnext := h.untouched halive ha
  have hp : ProcessOk backed c (H.advance id (n.act a).ps.currentTerm)
      (s.after id (n.act a) ⟨none, [], replies, e⟩) id (.running (n.act a)) :=
    ⟨l, halive.next hnext hwon⟩
  apply (h.around hnext).after hp ?_ hreplies hevents (h.elected hnext e)
  intro call hcall
  cases hcall

theorem Invariant.act_requestVote {req : RequestVoteRequest}
    (h : Acting backed reads c H es s id n (.requestVote req))
    (hup : s.processes id = .running n) {k : ℕ} {src : NodeId}
    (hcall : s.calls[k]? = some ⟨src, id, .requestVote req⟩) :
    ∃ H', Adds H H' [] ∧ Invariant backed reads c H' es (s.after id (n.act (.requestVote req))
      ⟨none, [], [(k, .requestVote (n.begin.onRequestVote req).1)], none⟩) := by
  obtain ⟨l, halive⟩ := alive_running h.invariant h.member hup
  have hnext := h.untouched halive (by simp [TouchesLog])
  have hreplies : ∀ k' resp, (k', resp) ∈ [(k, .requestVote (n.begin.onRequestVote req).1)] →
      ∃ call, s.calls[k']? = some call ∧
        ReplyOk backed (H.advance id (n.act (.requestVote req)).ps.currentTerm) call resp := by
    intro k' resp hmem
    obtain ⟨rfl, rfl⟩ := Prod.mk.inj (List.mem_singleton.mp hmem)
    refine ⟨_, hcall, ?_⟩
    intro req' hreq hbacked hyes
    cases hreq
    obtain ⟨_, ⟨hno, _⟩ | ⟨_, hn, hterm, _, hlog⟩⟩ := onRequestVote_cases n.begin req
    · rw [hno] at hyes
      cases hyes
    have hcur : (n.act (.requestVote req)).ps.currentTerm = req.term := by
      rw [Node.act, hn]
      exact hterm
    by_cases helected : req.term ∈ H.elected
    · exact Or.inl helected
    right
    have hnow := hnext.state.now
    rw [hcur] at hnow ⊢
    refine ⟨?_, l, hnow.matching, (hnow.keeps hbacked).lower helected, ?_⟩
    · exact Nat.le_of_eq (advance_current H id req.term).symm
    · have hview : (observeTerm n.begin req.term).log = n.log := (observeTerm_untouched _ _).log
      have hlast := halive.member.state.represents.lastTerm
      have hindex := halive.member.state.represents.lastIndex
      have hlast : n.log.lastTerm = LeaderCompleteness.lastTerm LogEntry.term l := hlast
      have hindex : n.log.lastIndex = l.length := hindex
      rw [Node.logOk, hview, hlast, hindex] at hlog
      simp only [Bool.or_eq_true, Bool.and_eq_true, decide_eq_true_eq] at hlog
      rcases hlog with hlater | ⟨hsame, hlong⟩
      · exact Or.inl hlater
      · exact Or.inr ⟨hsame.symm, hlong⟩
  have hinv := h.quiet halive (e := none) (by simp [TouchesLog])
    (fun _ hfin => by cases hfin) hreplies (by simp)
  rw [Option.toList_none, List.append_nil] at hinv
  exact ⟨_, .of_llog hnext.grows rfl, hinv⟩

/-- The member has taken in what its log has of the leader of its term. -/
theorem Alive.store (h : Alive backed c H id n l) {k : ℕ}
    (hfront : H.front n.ps.currentTerm k <+: l) :
    Alive backed c (H.store id n.ps.currentTerm k) id n l := by
  have hg := store_grows (k := k) h.member.current
  have hnow := h.member.state.now
  have hnew : Holding backed (H.store id n.ps.currentTerm k) id n.ps.currentTerm l :=
    ⟨hnow.matching, hnow.terms, hnow.fits, fun hbacked => (hnow.keeps hbacked).store hfront⟩
  refine ⟨⟨h.member.current, ?_, ?_, h.member.kept, ?_⟩, h.leads⟩
  · apply (h.member.state.begin hnew).weaken (fun f hf => hf)
    intro snap hs
    exact hs.grow (quorums_upward c) hg le_rfl
  · intro snap hs
    exact (h.member.snapshot snap hs).grow (quorums_upward c) hg le_rfl
  · intro hbacked
    exact (h.member.committed hbacked).grow (quorums_upward c) hg le_rfl

theorem Around.store (h : Around backed reads c H id es s) {t k : ℕ} (hcur : H.current id = t)
    (hk : k ≤ (H.llog t).length) : Around backed reads c (H.store id t k) id es s := by
  have hg := store_grows (k := k) hcur
  apply h.grow hg (store_lawful h.lawful hcur hk)
  · intro hbacked
    apply hg.chosen h.lawful (quorums_upward c) (h.chosen hbacked)
    intro u hu hnot
    exact absurd hu hnot
  · intro i hi hne
    exact ⟨rfl, store_acked_other H t k hne, fun _ _ _ => rfl⟩

theorem Invariant.act_appendEntries {req : AppendEntriesRequest}
    (h : Acting backed reads c H es s id n (.appendEntries req))
    (hup : s.processes id = .running n) {k : ℕ} {src : NodeId}
    (hcall : s.calls[k]? = some ⟨src, id, .appendEntries req⟩)
    (hok : (raftConditions backed reads).action n (.appendEntries req)) :
    ∃ H', Adds H H' [] ∧ Invariant backed reads c H' es (s.after id (n.act (.appendEntries req))
      ⟨none, [], [(k, .appendEntries (n.begin.onAppendEntries req).1)], none⟩) := by
  obtain ⟨l, halive⟩ := alive_running h.invariant h.member hup
  obtain ⟨hroom, _, hlow⟩ := hok
  have hsent := h.invariant.calls _ (List.mem_of_getElem? hcall)
  obtain ⟨l', hnext, htook⟩ := next_appendEntries halive.member (quorums_upward c)
    h.invariant.lawful h.invariant.chosen hsent hlow hroom.1
  have halive' : Alive backed c _ id (n.act (.appendEntries req)) l' :=
    halive.next hnext (fun _ hfin => by cases hfin)
  have helected : ∀ t ∈ H.elected, ∃ i, Event.elected i t ∈ es ++ (none : Option Event).toList :=
    h.elected hnext none
  by_cases hyes : (n.begin.onAppendEntries req).1.success = true
  · have htook := htook hyes
    have hcur : (n.act (.appendEntries req)).ps.currentTerm = req.term := by
      rw [Node.act, onAppendEntries_currentTerm]
      exact Nat.max_eq_right htook.term
    have hcur' := halive'.member.current
    have hfront := htook.front
    rw [← hcur] at hfront
    have hstored := halive'.store hfront
    rw [hcur] at hstored hcur'
    have hp : ProcessOk backed c _ (s.after id (n.act (.appendEntries req))
        ⟨none, [], [(k, .appendEntries (n.begin.onAppendEntries req).1)], none⟩) id
        (.running (n.act (.appendEntries req))) := ⟨l', hstored⟩
    have hinv := ((h.around hnext).store hcur' htook.within).after hp (fun _ hc => by cases hc) ?_
      (by simp) helected
    · rw [Option.toList_none, List.append_nil] at hinv
      exact ⟨_, .of_llog (hnext.grows.trans (store_grows hcur')) rfl, hinv⟩
    intro k' resp hmem
    obtain ⟨rfl, rfl⟩ := Prod.mk.inj (List.mem_singleton.mp hmem)
    refine ⟨_, hcall, ?_⟩
    intro req' hreq _
    cases hreq
    rw [store_acked]
    exact Nat.le_max_right _ _
  · have hp : ProcessOk backed c _ (s.after id (n.act (.appendEntries req))
        ⟨none, [], [(k, .appendEntries (n.begin.onAppendEntries req).1)], none⟩) id
        (.running (n.act (.appendEntries req))) := ⟨l', halive'⟩
    have hinv := (h.around hnext).after hp (fun _ hc => by cases hc) ?_ (by simp) helected
    · rw [Option.toList_none, List.append_nil] at hinv
      exact ⟨_, .of_llog hnext.grows rfl, hinv⟩
    intro k' resp hmem
    obtain ⟨rfl, rfl⟩ := Prod.mk.inj (List.mem_singleton.mp hmem)
    refine ⟨_, hcall, ?_⟩
    intro req' _ hno
    exact absurd hno hyes

theorem Invariant.act_installSnapshot {req : InstallSnapshotRequest}
    (h : Acting backed reads c H es s id n (.installSnapshot req))
    (hup : s.processes id = .running n) {k : ℕ} {src : NodeId}
    (hcall : s.calls[k]? = some ⟨src, id, .installSnapshot req⟩)
    (hok : (raftConditions backed reads).action n (.installSnapshot req)) :
    ∃ H', Adds H H' [] ∧ Invariant backed reads c H' es (s.after id (n.act (.installSnapshot req))
      ⟨none, [], [(k, .installSnapshot (n.begin.onInstallSnapshot req).1)], none⟩) := by
  obtain ⟨l, halive⟩ := alive_running h.invariant h.member hup
  obtain ⟨hroom, _, htail⟩ := hok
  have hsent := h.invariant.calls _ (List.mem_of_getElem? hcall)
  obtain ⟨l', hnext⟩ := next_installSnapshot halive.member (quorums_upward c)
    h.invariant.lawful h.invariant.chosen hsent htail hroom.1
  have halive' : Alive backed c _ id (n.act (.installSnapshot req)) l' :=
    halive.next hnext (fun _ hfin => by cases hfin)
  have hp : ProcessOk backed c _ (s.after id (n.act (.installSnapshot req))
      ⟨none, [], [(k, .installSnapshot (n.begin.onInstallSnapshot req).1)], none⟩) id
      (.running (n.act (.installSnapshot req))) := ⟨l', halive'⟩
  have hinv := (h.around hnext).after hp (fun _ hc => by cases hc) ?_ (by simp)
    (h.elected hnext none)
  · rw [Option.toList_none, List.append_nil] at hinv
    exact ⟨_, .of_llog hnext.grows rfl, hinv⟩
  intro k' resp hmem
  obtain ⟨rfl, rfl⟩ := Prod.mk.inj (List.mem_singleton.mp hmem)
  exact ⟨_, hcall, trivial⟩

theorem Invariant.act_startElection
    (h : Acting backed reads c H es s id n .startElection) (hup : s.processes id = .running n) :
    ∃ H', Adds H H' [] ∧ Invariant backed reads c H' es (s.after id (n.act .startElection)
      ⟨some (.election s.calls.length),
        n.peers.map (fun p => ⟨id, p, .requestVote n.begin.startElection.1⟩), [], none⟩) := by
  obtain ⟨l, halive⟩ := alive_running h.invariant h.member hup
  have hnext := h.untouched halive (by simp [TouchesLog])
  have halive' := halive.next hnext (fun _ hfin => by cases hfin)
  have hrep := halive.member.state.represents
  have hreq : n.begin.startElection.1 = ⟨n.ps.currentTerm + 1, id, l.length, lastTermOf l⟩ := by
    have hindex : n.log.lastIndex = l.length := hrep.lastIndex
    have hterm : n.log.lastTerm = lastTermOf l := hrep.lastTerm
    rw [← hindex, ← hterm, ← h.self]
    rfl
  have hcur : (n.act .startElection).ps.currentTerm = n.ps.currentTerm + 1 := rfl
  have hcampaign : Campaign (s.after id (n.act .startElection)
      ⟨some (.election s.calls.length),
        n.peers.map (fun p => ⟨id, p, .requestVote n.begin.startElection.1⟩), [], none⟩) id
      (n.act .startElection) l s.calls.length := by
    constructor
    · intro x hx
      rw [hcur]
      exact Nat.lt_succ_of_le (halive.member.state.now.terms x hx).2
    · intro i p hp
      have hp : n.peers[i]? = some p := hp
      rw [State.after_calls, List.getElem?_append_right (Nat.le_add_right _ _),
        Nat.add_sub_cancel_left, List.getElem?_map, hp, hreq]
      rfl
  have hp : ProcessOk backed c _ (s.after id (n.act .startElection)
      ⟨some (.election s.calls.length),
        n.peers.map (fun p => ⟨id, p, .requestVote n.begin.startElection.1⟩), [], none⟩) id
      (.waiting (n.act .startElection) (.election s.calls.length)) := ⟨l, halive', hcampaign⟩
  have hinv := (h.around hnext).after hp ?_ (fun _ _ hr => by cases hr) (by simp)
    (h.elected hnext none)
  · rw [Option.toList_none, List.append_nil] at hinv
    exact ⟨_, .of_llog hnext.grows rfl, hinv⟩
  intro call hcall
  obtain ⟨p, _, rfl⟩ := List.mem_map.mp hcall
  trivial

theorem process_member {i : NodeId} (hp : ProcessOk backed c H s i (s.processes i))
    (hn : (s.processes i).node = some n) : ∃ l, Alive backed c H i n l := by
  cases hup : s.processes i with
  | running x =>
    rw [hup] at hp hn
    cases hn
    exact hp
  | waiting x w =>
    rw [hup] at hp hn
    cases hn
    obtain ⟨l, halive, _⟩ := hp
    exact ⟨l, halive⟩
  | crashed img =>
    rw [hup] at hn
    cases hn

/-- A candidate that a majority supports has their ballots. -/
theorem Acting.ballots (h : Acting backed reads c H es s id n a) (hbacked : backed)
    (halive : Alive backed c H id n l) {first : ℕ} (hcampaign : Campaign s id n l first)
    (hfresh : n.ps.currentTerm ∉ H.elected) {results : List (Option RequestVoteResponse)}
    (hlen : results.length = n.peers.length)
    (hres : Answered s first (results.map (Option.map .requestVote)))
    (hq : n.quorum ≤ 1 +
      (results.filter (fun r => r.any RequestVoteResponse.voteGranted)).length) :
    (quorums c).IsQuorum {v | H.Ballot LogEntry.term v n.ps.currentTerm
      (lastTermOf l) l.length} := by
  have hvoter : ∀ v ∈ RaftElections.voters n.peers results, v ∈ n.peers ∧
      H.Ballot LogEntry.term v n.ps.currentTerm (lastTermOf l) l.length := by
    intro v hv
    obtain ⟨i, r, hpeer, hresult, hyes⟩ := RaftElections.mem_voters hv
    refine ⟨List.mem_of_getElem? hpeer, ?_⟩
    have hreply : (first + i, Response.requestVote r) ∈ s.replies := by
      apply hres
      rw [List.getElem?_map, hresult]
      rfl
    obtain ⟨call, hcall, hok⟩ := h.invariant.replies _ _ hreply
    rw [hcampaign.calls i v hpeer] at hcall
    cases hcall
    exact (hok _ rfl hbacked hyes).resolve_left hfresh
  have hown : H.Ballot LogEntry.term id n.ps.currentTerm (lastTermOf l) l.length := by
    have hnow := halive.member.state.now
    exact ⟨Nat.le_of_eq halive.member.current.symm, l, hnow.matching,
      (hnow.keeps hbacked).lower hfresh, Or.inr ⟨rfl, le_rfl⟩⟩
  have hcount := RaftElections.voters_length hlen
  have hpeer : ∀ v ∈ n.peers, v ∈ c.members ∧ v ≠ id := by
    intro v hv
    rw [h.peers] at hv
    exact (c.mem_peers id h.member v).mp hv
  have hnodup : (id :: RaftElections.voters n.peers results).Nodup := by
    rw [List.nodup_cons]
    refine ⟨fun hmem => (hpeer id (hvoter id hmem).1).2 rfl, ?_⟩
    apply RaftElections.voters_nodup ?_ hlen
    rw [h.peers]
    exact c.peers_nodup id h.member
  apply majority_of_list hnodup
  · intro v hv
    rcases List.mem_cons.mp hv with rfl | hv
    · exact h.member
    · exact (hpeer v (hvoter v hv).1).1
  · have hsize := RaftElections.peers_length h.member
    rw [Node.quorum, Node.clusterSize, h.peers, hsize, ← hcount] at hq
    rw [List.length_cons, ← h.peers] at *
    omega
  · intro v hv
    rcases List.mem_cons.mp hv with rfl | hv
    · exact hown
    · exact (hvoter v hv).2

/-- The election is won: the log of the new leader is where its term starts from. -/
theorem Acting.elect {results : List (Option RequestVoteResponse)}
    (h : Acting backed reads c H es s id n (.finishElection results))
    (hnext : Next backed (quorums c) H id n (n.act (.finishElection results)) H' l l)
    (hcur : (n.act (.finishElection results)).ps.currentTerm = n.ps.currentTerm)
    (hfresh : n.ps.currentTerm ∉ H.elected) (hterms : ∀ x ∈ l, x.term < n.ps.currentTerm)
    (hvotes : backed → (quorums c).IsQuorum {v | H.Ballot LogEntry.term v n.ps.currentTerm
      (lastTermOf l) l.length}) :
    Around backed reads c (H'.elect n.ps.currentTerm l) id es s ∧
      Alive backed c (H'.elect n.ps.currentTerm l) id (n.act (.finishElection results)) l ∧
      Adds H' (H'.elect n.ps.currentTerm l) [] := by
  have hfresh' : n.ps.currentTerm ∉ H'.elected := by
    rw [hnext.elected]
    exact hfresh
  have hnow := hnext.state.now
  have hg := elect_grows (l := l) hnext.lawful hfresh'
  have hlaw : (H'.elect n.ps.currentTerm l).Lawful LogEntry.term :=
    elect_lawful hnext.lawful hfresh'
      (fun x hx => ⟨(hnow.terms x hx).1, hterms x hx⟩) hnow.matching
  have haround := h.around hnext
  refine ⟨haround.grow hg hlaw ?_ ?_, ⟨?_, ?_⟩, elect_extends hnext.lawful hfresh' hnow.matching⟩
  · intro hbacked
    apply hg.chosen hnext.lawful (quorums_upward c) (haround.chosen hbacked)
    intro u hu hnot
    rcases Set.mem_insert_iff.mp hu with rfl | hold
    · apply quorums_upward c _ _ (hvotes hbacked)
      intro v hv
      have hballot := hg.ballot hnext.lawful (hnext.grows.ballot h.invariant.lawful hv)
      have hstart := elect_start H' n.ps.currentTerm l
      show History.Ballot LogEntry.term _ v _ _ _
      rw [hstart]
      exact hballot
    · exact absurd hold hnot
  · intro i hi hne
    refine ⟨rfl, rfl, ?_⟩
    intro x hx hlead
    obtain ⟨lx, hax⟩ := process_member (haround.others i hi hne) hx
    have hin := (hax.leads hlead).1
    have hne' : x.ps.currentTerm ≠ n.ps.currentTerm := by
      intro heq
      rw [heq] at hin
      exact hfresh' hin
    exact (elect_of_ne H' l hne').1
  · exact hnext.member.grow (quorums_upward c) hnext.lawful hg rfl (fun _ _ => rfl)
  · intro _
    rw [hcur]
    exact ⟨Set.mem_insert _ _, elect_llog H' n.ps.currentTerm l⟩

theorem Invariant.act_finishElection {results : List (Option RequestVoteResponse)}
    (h : Acting backed reads c H es s id n (.finishElection results)) {first : ℕ}
    (hup : s.processes id = .waiting n (.election first))
    (hlen : results.length = n.peers.length)
    (hres : Answered s first (results.map (Option.map .requestVote)))
    (hfresh : (n.act (.finishElection results)).role = .leader → n.ps.currentTerm ∉ H.elected)
    (hrole : n.role = .candidate) :
    ∃ H', Adds H H' [] ∧ Invariant backed reads c H'
      (es ++ (if (n.begin.finishElection results).role = .leader then
        some (Event.elected id (n.begin.finishElection results).ps.currentTerm)
          else none).toList)
      (s.after id (n.act (.finishElection results)) ⟨none, [], [],
        if (n.begin.finishElection results).role = .leader then
          some (.elected id (n.begin.finishElection results).ps.currentTerm)
        else none⟩) := by
  obtain ⟨l, halive, hcampaign⟩ := alive_waiting h.invariant h.member hup
  have hnext := h.untouched halive (by simp [TouchesLog])
  by_cases hlead : (n.begin.finishElection results).role = .leader
  · have hfresh := hfresh hlead
    rcases act_leader (a := .finishElection results) hlead with
      ⟨hnlead, _⟩ | ⟨results', ha, hn, hq⟩
    · rw [hrole] at hnlead
      cases hnlead
    cases ha
    have hcur : (n.act (.finishElection results)).ps.currentTerm = n.ps.currentTerm := by
      rw [hn]
      rfl
    have hterms : ∀ x ∈ l, x.term < n.ps.currentTerm := hcampaign.terms
    obtain ⟨haround, halive', hmore⟩ := h.elect hnext hcur hfresh hterms
      (fun hbacked => h.ballots hbacked halive hcampaign hfresh hlen hres hq)
    have hcur' : (n.begin.finishElection results).ps.currentTerm = n.ps.currentTerm := hcur
    rw [if_pos hlead, hcur']
    have hp : ProcessOk backed c _ (s.after id (n.act (.finishElection results))
        ⟨none, [], [], some (.elected id n.ps.currentTerm)⟩) id
        (.running (n.act (.finishElection results))) := ⟨l, halive'⟩
    have hfirst : Adds H _ [] := .of_llog hnext.grows rfl
    refine ⟨_, hfirst.trans hmore, haround.after hp (fun _ hc => by cases hc)
      (fun _ _ hr => by cases hr) ?_ ?_⟩
    · intro e he
      rw [Option.toList_some] at he
      obtain rfl := List.mem_singleton.mp he
      exact Set.mem_insert _ _
    · intro t ht
      rcases Set.mem_insert_iff.mp ht with rfl | hold
      · exact ⟨id, by simp⟩
      · obtain ⟨i, hi⟩ := h.invariant.elected t hold
        exact ⟨i, List.mem_append_left _ hi⟩
  · rw [if_neg hlead]
    refine ⟨_, .of_llog hnext.grows rfl,
      h.quiet halive (by simp [TouchesLog]) ?_ (fun _ _ hr => by cases hr) (by simp)⟩
    intro results' ha hwon
    apply hlead
    have hwon : n.begin.finishElection results = n.begin.becomeLeader := hwon
    rw [hwon]
    rfl

/-- The request for a peer that does not get a snapshot, built by a leader with the log `l`. -/
theorem built_sent (h : Alive backed c H id n l) (hrole : n.role = .leader) {p : NodeId}
    (hnone : n.snapshotFor p l.length = none) :
    AppendSent backed (quorums c) H (n.buildAppendEntriesFor p l.length) ∧
      l.length ≤ (n.buildAppendEntriesFor p l.length).prevLogIndex +
        (n.buildAppendEntriesFor p l.length).entries.length := by
  obtain ⟨helected, hleads⟩ := h.leads hrole
  have hrep : Represents n.log.toLogView l := h.member.state.represents
  set next := (n.nextIndex p).getD (l.length + 1) with hnext
  have hpoint : n.log.snapshotIndex ≤ next - 1 := by
    by_cases hzero : n.log.snapshotIndex = 0
    · rw [hzero]
      exact Nat.zero_le _
    · have hsnap := h.member.kept (Nat.pos_of_ne_zero hzero)
      rw [Node.snapshotFor] at hnone
      split at hnone
      · exact absurd (Option.map_eq_none_iff.mp hnone) hsnap
      · rename_i hgt
        exact Nat.le_sub_one_of_lt (Nat.not_le.mp hgt)
  have hentries : (n.buildAppendEntriesFor p l.length).entries = l.drop (next - 1) := by
    have hfrom := hrep.entriesFrom next
    rw [Nat.max_eq_left hpoint] at hfrom
    show (n.log.entriesFrom next).filter (fun e => e.index ≤ l.length) = _
    rw [hfrom, hrep.numbered.filter_le, List.take_length]
  have hprev : (n.buildAppendEntriesFor p l.length).prevLogIndex = next - 1 := rfl
  have hprevTerm : (n.buildAppendEntriesFor p l.length).prevLogTerm =
      (n.log.termAt (next - 1)).getD 0 := rfl
  refine ⟨⟨helected, ?_⟩, ?_⟩
  · by_cases hin : next - 1 ≤ l.length
    · left
      refine ⟨l, ⟨hrep.numbered, hentries, hin, ?_, h.member.state.now.fits⟩, ?_,
        h.member.committed⟩
      · intro hpos
        have hpos : 0 < next - 1 := hpos
        obtain ⟨e, he⟩ : ∃ e, l[next - 1 - 1]? = some e :=
          ⟨_, List.getElem?_eq_getElem (by omega)⟩
        have hlast := lastTermOf_take he
        rw [Nat.sub_add_cancel hpos] at hlast
        rw [hprevTerm, hprev, hlast, hrep.termAt hpos hpoint, he]
        rfl
      · have hterm : (n.buildAppendEntriesFor p l.length).term = n.ps.currentTerm := rfl
        rw [hterm, hleads]
    · right
      have hpos : 0 < next - 1 := by omega
      refine ⟨hpos, ?_⟩
      have hbeyond : l[next - 1 - 1]? = none := by
        rw [List.getElem?_eq_none_iff]
        omega
      rw [hprevTerm, hrep.termAt hpos hpoint, hbeyond]
      rfl
  · rw [hentries, hprev, List.length_drop]
    omega

/-- Every call of a write carries what the leader may send. -/
theorem writeCalls_ok (h : Alive backed c H id n l) (hrole : n.role = .leader) :
    ∀ call ∈ writeCalls id n l.length, CallOk backed c H call := by
  intro call hcall
  rcases List.mem_append.mp hcall with hcall | hcall
  · obtain ⟨p, hp, rfl⟩ := List.mem_map.mp hcall
    obtain ⟨peer, hpeer, rfl⟩ := List.mem_map.mp hp
    have hnone := (List.mem_filter.mp hpeer).2
    exact (built_sent h hrole (Option.isNone_iff_eq_none.mp hnone)).1
  · obtain ⟨p, hp, rfl⟩ := List.mem_map.mp hcall
    obtain ⟨peer, _, hpeer⟩ := List.mem_filterMap.mp hp
    obtain ⟨req, hreq, rfl⟩ := Option.map_eq_some_iff.mp hpeer
    have hsnap := h.member.snapshot _ (snapshotFor_of_snapshot hreq)
    have hterm : req.term = n.ps.currentTerm := by
      rw [Node.snapshotFor] at hreq
      split at hreq
      · obtain ⟨snap, _, rfl⟩ := Option.map_eq_some_iff.mp hreq
        rfl
      · cases hreq
    show req.term ∈ H.elected ∧ Covered backed (quorums c) H req.term (snapshotOf req)
    rw [hterm]
    exact ⟨(h.leads hrole).1, hsnap⟩

/-- What makes a write fail. -/
theorem startWrite_error {data : Bytes} {err : RaftError}
    (h : Acting backed reads c H es s id n (.startWrite data)) (halive : Alive backed c H id n l)
    (hwrite : (n.begin.startWrite data).1 = .error err)
    (hseq : n.log.wal.nextSequence < 2 ^ 64) : ¬ (n.role = .leader ∧ FitsSegment data) := by
  rintro ⟨hrole, hfit⟩
  have hok := (next_startWrite halive.member (quorums_upward c) h.invariant.lawful hrole
    (h.leading hrole) (halive.leads hrole).1 (halive.leads hrole).2 hfit hseq).1
  rw [hwrite] at hok
  cases hok

theorem Invariant.act_writeRefused {data : Bytes} {err : RaftError}
    (h : Acting backed reads c H es s id n (.startWrite data)) (hup : s.processes id = .running n)
    (hwrite : (n.begin.startWrite data).1 = .error err)
    (hok : (raftConditions backed reads).action n (.startWrite data)) :
    ∃ H', Adds H H' [] ∧ Invariant backed reads c H' es
      (s.after id (n.act (.startWrite data)) ⟨none, [], [], none⟩) := by
  obtain ⟨l, halive⟩ := alive_running h.invariant h.member hup
  have hnot := startWrite_error h halive hwrite hok.1.1
  have hnext := next_writeRefused halive.member (quorums_upward c) h.invariant.lawful hnot
  have hp : ProcessOk backed c _ (s.after id (n.act (.startWrite data)) ⟨none, [], [], none⟩) id
      (.running (n.act (.startWrite data))) :=
    ⟨l, halive.next hnext (fun _ hfin => by cases hfin)⟩
  have hinv := (h.around hnext).after hp (fun _ hc => by cases hc) (fun _ _ hr => by cases hr)
    (by simp) (h.elected hnext none)
  rw [Option.toList_none, List.append_nil] at hinv
  exact ⟨_, .of_llog hnext.grows rfl, hinv⟩

/-- What makes a write go through. -/
theorem startWrite_ok {data : Bytes} {index : ℕ} (halive : Alive backed c H id n l)
    (hwrite : (n.begin.startWrite data).1 = .ok index) : n.role = .leader ∧ FitsSegment data := by
  by_contra hnot
  obtain ⟨⟨err, herr⟩, _⟩ := startWrite_refused halive.member.state hnot
  rw [hwrite] at herr
  cases herr

theorem Invariant.act_writeStarted {data : Bytes} {index : ℕ}
    (h : Acting backed reads c H es s id n (.startWrite data)) (hup : s.processes id = .running n)
    (hwrite : (n.begin.startWrite data).1 = .ok index)
    (hok : (raftConditions backed reads).action n (.startWrite data)) :
    ∃ H', Adds H H' [⟨n.ps.currentTerm, index, data⟩] ∧
      Invariant backed reads c H' es (s.after id (n.act (.startWrite data))
      ⟨some (.write index data s.calls.length),
        writeCalls id (n.begin.startWrite data).2 index, [], none⟩) := by
  obtain ⟨l, halive⟩ := alive_running h.invariant h.member hup
  obtain ⟨hrole, hfit⟩ := startWrite_ok halive hwrite
  obtain ⟨hindex, hnext⟩ := next_startWrite halive.member (quorums_upward c) h.invariant.lawful
    hrole (h.leading hrole) (halive.leads hrole).1 (halive.leads hrole).2 hfit hok.1.1
  rw [hwrite] at hindex
  cases hindex
  set x : LogEntry := ⟨n.ps.currentTerm, l.length + 1, data⟩ with hx
  have halive' : Alive backed c _ id (n.act (.startWrite data)) (l ++ [x]) :=
    halive.next hnext (fun _ hfin => by cases hfin)
  have hps : (n.act (.startWrite data)).ps.currentTerm = n.ps.currentTerm :=
    congrArg PersistentState.currentTerm (startWrite_quiet n.begin data).ps
  have hrole' : (n.act (.startWrite data)).role = .leader :=
    (startWrite_quiet n.begin data).role.trans hrole
  obtain ⟨_, hleads⟩ := halive'.leads hrole'
  have hlen : (l ++ [x]).length = l.length + 1 := by simp
  have hfront : (H.push n.ps.currentTerm x).front (n.act (.startWrite data)).ps.currentTerm
      (l.length + 1) <+: l ++ [x] := by
    rw [History.front, hleads]
    exact List.take_prefix _ _
  have hwithin : l.length + 1 ≤
      ((H.push n.ps.currentTerm x).llog (n.act (.startWrite data)).ps.currentTerm).length := by
    rw [hleads, hlen]
  have hstored := halive'.store hfront
  have haround := (h.around hnext).store halive'.member.current hwithin
  have hcalls := writeCalls_ok hstored hrole'
  rw [hlen] at hcalls
  have hlow : n.log.snapshotIndex < l.length + 1 :=
    Nat.lt_succ_of_le halive.member.state.represents.point
  have hpoint : (n.act (.startWrite data)).log.snapshotIndex < l.length + 1 := by
    rw [show (n.act (.startWrite data)).log.snapshotIndex = n.log.snapshotIndex from
      (startWrite_same n.begin data).point]
    exact hlow
  have hentry : (l ++ [x])[l.length + 1 - 1]? =
      some ⟨(n.act (.startWrite data)).ps.currentTerm, l.length + 1, data⟩ := by
    rw [Nat.add_sub_cancel, List.getElem?_concat_length, hps]
  have hp : ProcessOk backed c ((H.push n.ps.currentTerm x).store id
        (n.act (.startWrite data)).ps.currentTerm (l.length + 1))
      (s.after id (n.act (.startWrite data))
      ⟨some (.write (l.length + 1) data s.calls.length),
        writeCalls id (n.begin.startWrite data).2 (l.length + 1), [], none⟩) id
      (.waiting (n.act (.startWrite data)) (.write (l.length + 1) data s.calls.length)) := by
    refine ⟨l ++ [x], hstored, ⟨hrole', hlen.symm, hentry, hpoint, hleads⟩, ?_, ?_⟩
    · rw [store_acked]
      exact Nat.le_max_right _ _
    · intro i call hcall
      rw [State.after_calls, List.getElem?_append_right (Nat.le_add_right _ _),
        Nat.add_sub_cancel_left]
      exact hcall
  have hinv := haround.after hp hcalls (fun _ _ hr => by cases hr) (by simp)
    (h.elected hnext none)
  rw [Option.toList_none, List.append_nil] at hinv
  have hpush : Adds H (H.push n.ps.currentTerm x) [x] := by
    refine push_extends (congrArg LogEntry.term hx) ?_
    rw [(halive.leads hrole).2, hx]
  have hkept : Adds (H.push n.ps.currentTerm x) ((H.push n.ps.currentTerm x).store id
      (n.act (.startWrite data)).ps.currentTerm (l.length + 1)) [] :=
    .of_llog (store_grows halive'.member.current) rfl
  exact ⟨_, hpush.trans hkept, hinv⟩

end

end RaftClusterLogs
